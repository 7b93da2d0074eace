import Mathlib.Data.List.TakeWhile
import TreeQuery.Proofs.Bindings.Namespaces
import TreeQuery.Proofs.Lookup
import TreeQuery.Proofs.View.ClarkName
import TreeQuery.Query.Basic

/-!
# The variables of a query

A variable can be named by a pair, in braces, with a prefix, or plainly (`VariableName.Denotes`). All
names are read as a URI and a local name, when a query is made, when a value is asked for by a name,
and when a reference is resolved, and so they meet in one table (`Query.names_meet`).
-/

namespace TreeQuery

namespace VariableName

open Bindings (Part Sorted find? mem_of_find? find?_eq_none_iff)

variable {f : Forest} {bound : List Namespace} {v : Value} {x y : VariableName} {s p l : String}

/-- Whether a text is read as a name with its URI in braces. -/
def Braced (s : String) : Prop := s.toList.head? = some '\x7b'

instance : DecidablePred Braced := fun s =>
  inferInstanceAs (Decidable (s.toList.head? = some '\x7b'))

/-- The forms of a name. -/
inductive IsName : Value → Prop where
  | pair {u : Value} {uri : String} (l : String) (part : Part u uri) : IsName (.tuple [u, .text l])
  | text (s : String) : IsName (.text s)

/-- The variable that a name denotes where the namespaces `bound` are. -/
inductive Denotes (bound : List Namespace) : Value → VariableName → Prop where
  | pair {u : Value} {uri : String} (l : String) (part : Part u uri) :
      Denotes bound (.tuple [u, .text l]) ⟨uri, l⟩
  | clark {uri l : String} (closed : '\x7d' ∉ uri.toList) (filled : l ≠ "") :
      Denotes bound (.text ("\x7b" ++ uri ++ "\x7d" ++ l)) ⟨uri, l⟩
  | prefixed {n : Namespace} {l : String} (known : n ∈ bound) (last : ':' ∉ l.toList)
      (unbraced : ¬Braced (n.pfx ++ ":" ++ l)) :
      Denotes bound (.text (n.pfx ++ ":" ++ l)) ⟨n.uri, l⟩
  | plain {n : Namespace} {l : String} (known : n ∈ bound) (default : n.pfx = "")
      (last : ':' ∉ l.toList) (unbraced : ¬Braced l) : Denotes bound (.text l) ⟨n.uri, l⟩

/-! ## Reading a text -/

theorem splitLastColon_append (h : ':' ∉ l.toList) : splitLastColon (p ++ ":" ++ l) = (p, l) := by
  have hl : ':' ∉ l.toList.reverse := mt List.mem_reverse.1 h
  have hs : (p ++ ":" ++ l).toList.reverse = l.toList.reverse ++ ':' :: p.toList.reverse := by
    simp [String.toList_append]
  rw [splitLastColon, hs, takeWhile_until hl, dropWhile_until hl]
  simp

theorem splitLastColon_plain (h : ':' ∉ s.toList) : splitLastColon s = ("", s) := by
  have hs : ∀ c ∈ s.toList.reverse, (c != ':') = true := fun c hc =>
    bne_iff_ne.2 (ne_of_mem_of_not_mem (List.mem_reverse.1 hc) h)
  rw [splitLastColon, List.takeWhile_eq_self_iff.2 hs, List.dropWhile_eq_nil_iff.2 hs]
  simp

theorem colon_cases (s : String) :
    ':' ∉ s.toList ∨ ∃ p l, s = p ++ ":" ++ l ∧ ':' ∉ l.toList := by
  by_cases h : ':' ∈ s.toList
  · obtain ⟨after, before, hs, hno⟩ := List.eq_append_cons_of_mem (List.mem_reverse.2 h)
    refine .inr ⟨String.ofList before.reverse, String.ofList after.reverse, ?_, ?_⟩
    · rw [← List.reverse_inj, List.reverse_reverse] at hs
      refine String.toList_inj.1 (hs.trans ?_)
      simp [String.toList_append]
    · rwa [String.toList_ofList, List.mem_reverse]
  · exact .inl h

theorem ofBraced?_append {as bs : List Char} (ha : '\x7d' ∉ as) (hb : bs ≠ []) :
    ofBraced? (as ++ '\x7d' :: bs) = some ⟨String.ofList as, String.ofList bs⟩ := by
  obtain ⟨b, bs, rfl⟩ := List.exists_cons_of_ne_nil hb
  rw [ofBraced?, takeWhile_until ha, dropWhile_until ha]

theorem ofBraced?_eq_some {cs : List Char} (h : ofBraced? cs = some x) :
    ∃ as bs, cs = as ++ '\x7d' :: bs ∧ '\x7d' ∉ as ∧ bs ≠ [] := by
  by_cases hm : '\x7d' ∈ cs
  · obtain ⟨as, bs, rfl, ha⟩ := List.eq_append_cons_of_mem hm
    refine ⟨as, bs, rfl, ha, ?_⟩
    rintro rfl
    rw [ofBraced?, dropWhile_until ha] at h
    cases h
  · have hall : ∀ c ∈ cs, (c != '\x7d') = true := fun c hc =>
      bne_iff_ne.2 (ne_of_mem_of_not_mem hc hm)
    rw [ofBraced?, List.dropWhile_eq_nil_iff.2 hall] at h
    cases h

theorem braced_iff : Braced s ↔ ∃ cs, s.toList = '\x7b' :: cs := by
  rw [Braced, List.head?_eq_some_iff]

theorem ofText_of_braced {cs : List Char} (h : s.toList = '\x7b' :: cs) :
    ofText bound s = match ofBraced? cs with
      | some name => .ok name
      | none => .error (.badVariable s) := by
  rw [ofText, h]
  rfl

theorem toList_braced (uri l : String) :
    ("\x7b" ++ uri ++ "\x7d" ++ l).toList = '\x7b' :: (uri.toList ++ '\x7d' :: l.toList) := by
  simp [String.toList_append]

theorem ofText_of_not_braced (h : ¬Braced s) :
    ofText bound s = match find? bound (splitLastColon s).1 with
      | some n => .ok ⟨n.uri, (splitLastColon s).2⟩
      | none => .error (.unboundPrefix (splitLastColon s).1 s) := by
  unfold ofText
  split
  · next cs hs => exact absurd (braced_iff.2 ⟨cs, hs⟩) h
  · rfl

/-- A text is read as the variable that it denotes. -/
theorem ofText_eq_ok_iff (hb : Sorted bound) :
    ofText bound s = .ok x ↔ Denotes bound (.text s) x := by
  constructor
  · intro h
    by_cases hbraced : Braced s
    · obtain ⟨cs, hs⟩ := braced_iff.1 hbraced
      rw [ofText_of_braced hs] at h
      split at h
      · next name hname =>
        obtain ⟨as, bs, rfl, ha, hbs⟩ := ofBraced?_eq_some hname
        rw [ofBraced?_append ha hbs] at hname
        cases hname
        cases h
        have hbraces : s = "\x7b" ++ String.ofList as ++ "\x7d" ++ String.ofList bs := by
          rw [← String.toList_inj, toList_braced, String.toList_ofList, String.toList_ofList, hs]
        rw [hbraces]
        refine .clark (by rwa [String.toList_ofList]) fun he => hbs ?_
        rw [← String.toList_ofList (l := bs), he, String.toList_empty]
      · cases h
    · rw [ofText_of_not_braced hbraced] at h
      split at h
      · next n hn =>
        obtain ⟨hmem, hp⟩ := mem_of_find? hn
        cases h
        rcases colon_cases s with hno | ⟨p, l, rfl, hl⟩
        · rw [splitLastColon_plain hno] at hp ⊢
          exact .plain hmem hp hno hbraced
        · rw [splitLastColon_append hl] at hp ⊢
          subst hp
          exact .prefixed hmem hl hbraced
      · cases h
  · intro h
    generalize hv : Value.text s = v at h
    cases h with
    | pair => cases hv
    | @clark uri l closed filled =>
      cases hv
      have hl : l.toList ≠ [] := mt String.toList_eq_nil_iff.1 filled
      rw [ofText_of_braced (toList_braced uri l), ofBraced?_append closed hl,
        String.ofList_toList, String.ofList_toList]
    | prefixed known last unbraced =>
      cases hv
      rw [ofText_of_not_braced unbraced, splitLastColon_append last,
        hb.find?_eq_some_iff.2 ⟨known, rfl⟩]
    | plain known default last unbraced =>
      cases hv
      rw [ofText_of_not_braced unbraced, splitLastColon_plain last,
        hb.find?_eq_some_iff.2 ⟨known, default⟩]

theorem ofValue_eq_ok_iff (hb : Sorted bound) (hv : IsName v) :
    ofValue f bound v = .ok x ↔ Denotes bound v x := by
  cases hv with
  | text s => exact ofText_eq_ok_iff hb
  | pair l part =>
    cases part with
    | text =>
      constructor
      · intro h
        cases h
        exact .pair l (.text _)
      · intro h
        cases h with
        | pair _ part =>
          cases part
          rfl
    | none =>
      constructor
      · intro h
        cases h
        exact .pair l .none
      · intro h
        cases h with
        | pair _ part =>
          cases part
          rfl

theorem Denotes.isName (h : Denotes bound v x) : IsName v := by
  cases h with
  | pair l part => exact .pair l part
  | _ => exact .text _

theorem Denotes.unique (hb : Sorted bound) (h : Denotes bound v x) (h' : Denotes bound v y) :
    x = y := by
  have hx := (ofValue_eq_ok_iff (f := .empty) hb h.isName).2 h
  have hy := (ofValue_eq_ok_iff (f := .empty) hb h.isName).2 h'
  exact Except.ok.inj (hx.symm.trans hy)

/-! ## Names that denote something -/

/-- What is asked of names so that each of them denotes a variable of its own. -/
structure Accepted (bound : List Namespace) (names : List Value) : Prop where
  /-- A local name follows the first closing brace. -/
  closed : ∀ s, .text s ∈ names → Braced s →
    ∃ uri l, s = "\x7b" ++ uri ++ "\x7d" ++ l ∧ '\x7d' ∉ uri.toList ∧ l ≠ ""
  /-- What stands before the last colon is bound. -/
  known : ∀ p l, .text (p ++ ":" ++ l) ∈ names → ':' ∉ l.toList → ¬Braced (p ++ ":" ++ l) →
    ∃ n ∈ bound, n.pfx = p
  distinct : names.Pairwise fun v w => ∀ x, Denotes bound v x → ¬Denotes bound w x

theorem Denotes.closed (h : Denotes bound (.text s) x) (hs : Braced s) :
    ∃ uri l, s = "\x7b" ++ uri ++ "\x7d" ++ l ∧ '\x7d' ∉ uri.toList ∧ l ≠ "" := by
  cases h with
  | clark closed filled => exact ⟨_, _, rfl, closed, filled⟩
  | prefixed known last unbraced => exact absurd hs unbraced
  | plain known default last unbraced => exact absurd hs unbraced

theorem Denotes.known (h : Denotes bound (.text (p ++ ":" ++ l)) x) (hl : ':' ∉ l.toList)
    (hs : ¬Braced (p ++ ":" ++ l)) : ∃ n ∈ bound, n.pfx = p := by
  generalize hv : p ++ ":" ++ l = s at h hs
  cases h with
  | clark => exact absurd (braced_iff.2 ⟨_, toList_braced _ _⟩) hs
  | @prefixed n l' known last unbraced =>
    have hsplit := congrArg splitLastColon hv
    rw [splitLastColon_append hl, splitLastColon_append last] at hsplit
    exact ⟨n, known, (Prod.mk.inj hsplit).1.symm⟩
  | plain known default last unbraced =>
    refine absurd ?_ last
    rw [← hv]
    simp [String.toList_append]

/-- A text denotes a variable if it is neither a name with braces that are not closed nor one with a
prefix that is not bound. -/
theorem exists_denotes (hd : ∃ n ∈ bound, n.pfx = "") (hclosed : Braced s →
      ∃ uri l, s = "\x7b" ++ uri ++ "\x7d" ++ l ∧ '\x7d' ∉ uri.toList ∧ l ≠ "")
    (hknown : ∀ p l, s = p ++ ":" ++ l → ':' ∉ l.toList → ¬Braced s → ∃ n ∈ bound, n.pfx = p) :
    ∃ x, Denotes bound (.text s) x := by
  by_cases hs : Braced s
  · obtain ⟨uri, l, rfl, hu, hl⟩ := hclosed hs
    exact ⟨_, .clark hu hl⟩
  · rcases colon_cases s with hno | ⟨p, l, rfl, hl⟩
    · obtain ⟨n, hn, hp⟩ := hd
      exact ⟨_, .plain hn hp hno hs⟩
    · obtain ⟨n, hn, rfl⟩ := hknown p l rfl hl hs
      exact ⟨_, .prefixed hn hl hs⟩

theorem Accepted.exists_denotes {names : List Value} (h : Accepted bound names)
    (hd : ∃ n ∈ bound, n.pfx = "") (hv : v ∈ names) (hname : IsName v) :
    ∃ x, Denotes bound v x := by
  cases hname with
  | pair l part => exact ⟨_, .pair l part⟩
  | text s =>
    refine VariableName.exists_denotes hd (h.closed s hv) fun p l he hl hs => ?_
    exact h.known p l (he ▸ hv) hl (he ▸ hs)

end VariableName

/-! ## The table -/

namespace Bindings

open VariableName

variable {f : Forest} {bound : List Namespace} {es : List (Value × Value)}
  {found rest values : List (VariableName × Value)} {k v : Value} {name : VariableName}

/-- Entries for named values, one for each of them in their order. -/
def Tabled (bound : List Namespace) (es : List (Value × Value))
    (values : List (VariableName × Value)) : Prop :=
  List.Forall₂ (fun b e => Denotes bound b.1 e.1 ∧ e.2 = b.2) es values

theorem valuesFrom_cons (h : ofValue f bound k = .ok name) :
    valuesFrom f bound found ((k, v) :: es) =
      if name ∈ found.map (·.1) then .error (.variableConflict name.uri name.localName)
      else valuesFrom f bound (found ++ [(name, v)]) es := by
  rw [valuesFrom, h]
  show (if (found.lookup name).isSome = true then _ else _) = _
  by_cases hmem : name ∈ found.map (·.1)
  · rw [if_pos hmem, if_pos (isSome_lookup_iff.2 hmem)]
    rfl
  · rw [if_neg hmem, if_neg (mt isSome_lookup_iff.1 hmem)]

theorem nodup_keys_concat (e : VariableName × Value) : ((found ++ [e]).map (·.1)).Nodup ↔
    e.1 ∉ found.map (·.1) ∧ (found.map (·.1)).Nodup := by
  rw [List.map_append, List.map_singleton, ← List.concat_eq_append, List.nodup_concat]

/-- Variables are bound one after the other if their names denote different variables. -/
theorem valuesFrom_eq_ok_iff (hb : Sorted bound) (hn : ∀ b ∈ es, IsName b.1)
    (hfound : (found.map (·.1)).Nodup) : valuesFrom f bound found es = .ok values ↔
      ∃ rest, values = found ++ rest ∧ Tabled bound es rest ∧ (values.map (·.1)).Nodup := by
  induction es generalizing found with
  | nil =>
    constructor
    · intro h
      cases h
      exact ⟨[], (List.append_nil _).symm, .nil, hfound⟩
    · rintro ⟨rest, rfl, htable, -⟩
      cases htable
      rw [List.append_nil]
      rfl
  | cons b es ih =>
    obtain ⟨k, v⟩ := b
    obtain ⟨hk, hes⟩ := List.forall_mem_cons.1 hn
    constructor
    · intro h
      obtain ⟨name, hname, -⟩ := bind_eq_ok h
      rw [valuesFrom_cons hname] at h
      split at h
      · cases h
      · next hnew =>
        have hnodup := (nodup_keys_concat (name, v)).2 ⟨hnew, hfound⟩
        obtain ⟨rest, rfl, htable, hvalues⟩ := (ih hes hnodup).1 h
        have hfirst := (ofValue_eq_ok_iff hb hk).1 hname
        exact ⟨(name, v) :: rest, List.append_assoc .., .cons ⟨hfirst, rfl⟩ htable, hvalues⟩
    · rintro ⟨rest, rfl, htable, hvalues⟩
      cases htable with
      | @cons _ e _ rest hfirst htable =>
        obtain ⟨name, w⟩ := e
        obtain ⟨hname, rfl⟩ : Denotes bound k name ∧ w = v := hfirst
        have hnodup : ((found ++ [(name, w)]).map (·.1)).Nodup := by
          rw [List.append_cons, List.map_append] at hvalues
          exact hvalues.of_append_left
        rw [valuesFrom_cons ((ofValue_eq_ok_iff hb hk).2 hname),
          if_neg ((nodup_keys_concat _).1 hnodup).1]
        exact (ih hes hnodup).2 ⟨rest, List.append_cons .., htable, hvalues⟩

theorem exists_tabled (h : ∀ b ∈ es, ∃ x, Denotes bound b.1 x) :
    ∃ values, Tabled bound es values := by
  induction es with
  | nil => exact ⟨[], .nil⟩
  | cons b es ih =>
    obtain ⟨⟨x, hx⟩, hes⟩ := List.forall_mem_cons.1 h
    obtain ⟨values, hvalues⟩ := ih hes
    exact ⟨(x, b.2) :: values, .cons ⟨hx, rfl⟩ hvalues⟩

theorem Tabled.mem_of_denotes (h : Tabled bound es values) (hb : Sorted bound)
    {b : Value × Value} (hmem : b ∈ es) (hx : Denotes bound b.1 name) : (name, b.2) ∈ values := by
  obtain ⟨e, he, hname, hvalue⟩ := exists_right_of_forall₂ h hmem
  rwa [← hname.unique hb hx, ← hvalue]

theorem Tabled.exists_of_mem (h : Tabled bound es values) {e : VariableName × Value}
    (he : e ∈ values) : ∃ b ∈ es, Denotes bound b.1 e.1 := by
  obtain ⟨b, hb, hx, -⟩ := exists_left_of_forall₂ h he
  exact ⟨b, hb, hx⟩

/-- No variable is twice in a table if no two names denote one. -/
theorem Tabled.nodup_iff (h : Tabled bound es values) (hb : Sorted bound) :
    (values.map (·.1)).Nodup ↔
      (es.map (·.1)).Pairwise fun v w => ∀ x, Denotes bound v x → ¬Denotes bound w x := by
  induction h with
  | nil => exact iff_of_true .nil .nil
  | @cons b e es values hfirst hrest ih =>
    have hrest : Tabled bound es values := hrest
    rw [List.map_cons, List.map_cons, List.nodup_cons, List.pairwise_cons, ih]
    refine and_congr_left fun _ => ⟨fun hnew v hv x hx hx' => hnew ?_, fun hnew hmem => ?_⟩
    · obtain ⟨b', hb', rfl⟩ := List.mem_map.1 hv
      rw [hfirst.1.unique hb hx]
      exact List.mem_map_of_mem (f := Prod.fst) (hrest.mem_of_denotes hb hb' hx')
    · obtain ⟨e', he', hname⟩ := List.mem_map.1 hmem
      obtain ⟨b', hb', hdenotes⟩ := hrest.exists_of_mem he'
      exact hnew b'.1 (List.mem_map_of_mem hb') e.1 hfirst.1 (hname ▸ hdenotes)

theorem Tabled.exists_denotes (h : Tabled bound es values) {b : Value × Value} (hb : b ∈ es) :
    ∃ x, Denotes bound b.1 x := by
  obtain ⟨e, -, hx, -⟩ := exists_right_of_forall₂ h hb
  exact ⟨e.1, hx⟩

theorem Tabled.lookup_eq_some (h : Tabled bound es values) (hb : Sorted bound)
    (hn : (values.map (·.1)).Nodup) {b : Value × Value} (hmem : b ∈ es)
    (hx : Denotes bound b.1 name) : values.lookup name = some b.2 :=
  (lookup_eq_some_iff_mem hn).2 (h.mem_of_denotes hb hmem hx)

theorem Tabled.lookup_eq_none (h : Tabled bound es values)
    (hno : ∀ b ∈ es, ¬Denotes bound b.1 name) : values.lookup name = none := by
  refine List.lookup_eq_none_iff.2 fun e he => bne_iff_ne.2 fun hname => ?_
  obtain ⟨b, hb, hdenotes⟩ := h.exists_of_mem he
  exact hno b hb (hname ▸ hdenotes)

theorem valuesOf_eq_ok_iff (hb : Sorted bound) (hn : ∀ b ∈ es, IsName b.1) :
    valuesOf f bound (.dict es) = .ok values ↔
      Tabled bound es values ∧ (values.map (·.1)).Nodup := by
  have hfound : (([] : List (VariableName × Value)).map (·.1)).Nodup := List.nodup_nil
  refine (valuesFrom_eq_ok_iff hb hn hfound).trans ?_
  simp only [List.nil_append, exists_eq_left']

/-- Names have a table exactly if they are accepted. -/
theorem exists_valuesOf_iff (hb : Sorted bound) (hd : ∃ n ∈ bound, n.pfx = "")
    (hn : ∀ b ∈ es, IsName b.1) :
    (∃ values, valuesOf f bound (.dict es) = .ok values) ↔ Accepted bound (es.map (·.1)) := by
  constructor
  · rintro ⟨values, hvalues⟩
    obtain ⟨htable, hnodup⟩ := (valuesOf_eq_ok_iff hb hn).1 hvalues
    have hdenotes : ∀ v ∈ es.map (·.1), ∃ x, Denotes bound v x :=
      List.forall_mem_map.2 fun b hb => htable.exists_denotes hb
    refine ⟨fun s hs hbraced => ?_, fun p l hs hl hbraced => ?_, (htable.nodup_iff hb).1 hnodup⟩
    · obtain ⟨x, hx⟩ := hdenotes _ hs
      exact hx.closed hbraced
    · obtain ⟨x, hx⟩ := hdenotes _ hs
      exact hx.known hl hbraced
  · intro h
    have hdenotes : ∀ b ∈ es, ∃ x, Denotes bound b.1 x := fun b hmem =>
      h.exists_denotes hd (List.mem_map_of_mem hmem) (hn b hmem)
    obtain ⟨values, htable⟩ := exists_tabled hdenotes
    exact ⟨values, (valuesOf_eq_ok_iff hb hn).2 ⟨htable, (htable.nodup_iff hb).2 h.distinct⟩⟩

end Bindings

/-! ## Queries and their references -/

namespace Query

open Bindings VariableName

variable {σ : Type} {f : Forest} {q : Query σ} {bound : List Namespace}
  {es : List (Value × Value)} {b : Value × Value} {name : VariableName}

/-- The URI that a prefix has in a query at a node with the namespaces `scope`: the query's, else
that of the node, else none. -/
inductive UriOf (bound : List Namespace) (scope : List (String × String)) (p : String) :
    String → Prop where
  | query {n : Namespace} (known : n ∈ bound) (pfx : n.pfx = p) : UriOf bound scope p n.uri
  | node {uri : String} (unknown : ∀ n ∈ bound, n.pfx ≠ p) (inScope : scope.lookup p = some uri) :
      UriOf bound scope p uri
  | none (unknown : ∀ n ∈ bound, n.pfx ≠ p) (outOfScope : scope.lookup p = none) :
      UriOf bound scope p ""

theorem uriOf_resolvePrefix (q : Query σ) (scope : List (String × String)) (p : Option String) :
    UriOf q.namespaces scope (p.getD "") (q.resolvePrefix scope p) := by
  unfold resolvePrefix
  cases hf : find? q.namespaces (p.getD "") with
  | some n =>
    obtain ⟨hmem, hp⟩ := mem_of_find? hf
    exact .query hmem hp
  | none =>
    have hunknown := find?_eq_none_iff.1 hf
    cases hs : scope.lookup (p.getD "") with
    | some uri => exact .node hunknown hs
    | none => exact .none hunknown hs

/-- A prefix that the query binds has the same URI everywhere. -/
theorem resolvePrefix_of_mem (hb : Sorted q.namespaces) {n : Namespace} (hn : n ∈ q.namespaces)
    (scope : List (String × String)) {p : Option String} (hp : n.pfx = p.getD "") :
    q.resolvePrefix scope p = n.uri := by
  rw [resolvePrefix, hb.find?_eq_some_iff.2 ⟨hn, hp⟩]

theorem resolveVariable_none (q : Query σ) (scope : List (String × String)) (p : Option String)
    (l : String) : q.resolveVariable scope none p l =
      match q.value? ⟨q.resolvePrefix scope p, l⟩ with
      | some v => .ok v
      | none => .error (.unresolved (q.resolvePrefix scope p) l) := rfl

/-- The names, plain or with a prefix, that are spelled like the reference to `l` with the prefix
`p`, or with none. -/
inductive Spelled : Value → Option String → String → Prop where
  | plain {l : String} (last : ':' ∉ l.toList) (unbraced : ¬Braced l) : Spelled (.text l) none l
  | prefixed {p l : String} (last : ':' ∉ l.toList) (unbraced : ¬Braced (p ++ ":" ++ l)) :
      Spelled (.text (p ++ ":" ++ l)) (some p) l

/-- A name denotes what a reference that is spelled like it refers to at any node. -/
theorem Spelled.denotes {v : Value} {p : Option String} {l : String} (h : Spelled v p l)
    (hb : Sorted q.namespaces) (hx : Denotes q.namespaces v name)
    (scope : List (String × String)) : name = ⟨q.resolvePrefix scope p, l⟩ := by
  cases h with
  | plain last unbraced =>
    generalize hv : Value.text l = v at hx
    cases hx with
    | pair => cases hv
    | clark =>
      cases hv
      exact absurd (braced_iff.2 ⟨_, toList_braced _ _⟩) unbraced
    | prefixed =>
      cases hv
      exact absurd (by simp [String.toList_append]) last
    | plain known default =>
      cases hv
      rw [resolvePrefix_of_mem (p := none) hb known scope default]
  | @prefixed p _ last unbraced =>
    obtain ⟨n, hn, rfl⟩ := hx.known last unbraced
    rw [hx.unique hb (.prefixed hn last unbraced), resolvePrefix_of_mem hb hn scope rfl]

/-- A query keeps the named values `es` for whoever asks for them. -/
structure Keeps (f : Forest) (q : Query σ) (es : List (Value × Value)) : Prop where
  table : Tabled q.namespaces es q.values
  once : (q.values.map (·.1)).Nodup
  own : ∀ b ∈ es, q.variableOf f b.1 none = .ok b.2
  reference : ∀ scope p l, ∃ uri, UriOf q.namespaces scope (p.getD "") uri ∧
    (∀ b ∈ es, Denotes q.namespaces b.1 ⟨uri, l⟩ → q.resolveVariable scope none p l = .ok b.2) ∧
    ((∀ b ∈ es, ¬Denotes q.namespaces b.1 ⟨uri, l⟩) →
      q.resolveVariable scope none p l = .error (.unresolved uri l))
  spelled : ∀ b ∈ es, ∀ p l, Spelled b.1 p l → ∀ scope, q.resolveVariable scope none p l = .ok b.2

/-- A name has its value in a query with a table of named values. -/
theorem variableOf_of_denotes (hb : Sorted q.namespaces) (hv : q.value? name = some b.2)
    (hx : Denotes q.namespaces b.1 name) : q.variableOf f b.1 none = .ok b.2 := by
  have hname := (ofValue_eq_ok_iff (f := f) hb hx.isName).2 hx
  simp only [variableOf, hname, pure, Except.pure, bind, Except.bind, hv]

theorem keeps_of_tabled (hb : Sorted q.namespaces) (htable : Tabled q.namespaces es q.values)
    (hn : (q.values.map (·.1)).Nodup) : Keeps f q es where
  table := htable
  once := hn
  own b hmem := by
    obtain ⟨x, hx⟩ := htable.exists_denotes hmem
    exact variableOf_of_denotes hb (htable.lookup_eq_some hb hn hmem hx) hx
  reference scope p l := by
    refine ⟨_, uriOf_resolvePrefix q scope p, fun b hmem hx => ?_, fun hno => ?_⟩
    · rw [resolveVariable_none, value?, htable.lookup_eq_some hb hn hmem hx]
    · rw [resolveVariable_none, value?, htable.lookup_eq_none hno]
  spelled b hmem p l hs scope := by
    obtain ⟨x, hx⟩ := htable.exists_denotes hmem
    rw [hs.denotes hb hx scope] at hx
    rw [resolveVariable_none, value?, htable.lookup_eq_some hb hn hmem hx]

/-- A query is made of named values exactly if each name denotes a variable of its own. Then it
keeps the value of each, once, for the name itself, for every reference to the variable that the name
denotes, and for a reference that is spelled like it at whatever node. -/
theorem names_meet {expression : String} (filter : Filter σ) {namespaces : Value}
    (hexpression : ∃ c ∈ expression.toList, Text.isBlank c = false)
    (hbound : Bindings.collect f namespaces = .ok bound) (hn : ∀ b ∈ es, IsName b.1) :
    ((∃ q, make f (.text expression) (.ok filter) (.dict es) namespaces = .ok q) ↔
        Accepted bound (es.map (·.1))) ∧
      ∀ q, make f (.text expression) (.ok filter) (.dict es) namespaces = .ok q →
        q.namespaces = bound ∧ Keeps f q es := by
  obtain ⟨hb, hd⟩ := sorted_of_collect hbound
  rw [make_eq filter hexpression hbound, ← exists_valuesOf_iff (f := f) hb hd hn]
  cases hvalues : valuesOf f bound (.dict es) with
  | error fault => exact ⟨⟨nofun, nofun⟩, nofun⟩
  | ok values =>
    refine ⟨⟨fun _ => ⟨_, rfl⟩, fun _ => ⟨_, rfl⟩⟩, fun q hq => ?_⟩
    cases hq
    obtain ⟨htable, hnodup⟩ := (valuesOf_eq_ok_iff hb hn).1 hvalues
    exact ⟨rfl, keeps_of_tabled hb htable hnodup⟩

/-- Names of all forms where a default namespace is bound, and references at a node that binds the
same prefixes, and one more, to other URIs. -/
theorem names_meet_mixed :
    let namespaces : Value := .list [.tuple [.text "p", .text "urn:p"], .tuple [.none, .text "urn:d"]]
    let es : List (Value × Value) := [(.tuple [.text "urn:p", .text "pair"], .int 1),
      (.tuple [.none, .text "bare"], .int 2), (.text "\x7burn:q\x7dclark", .int 3),
      (.text "p:name", .int 4), (.text "plain", .int 5)]
    let scope : List (String × String) := [("p", "urn:e"), ("", "urn:e"), ("s", "urn:q")]
    ∃ q : Query Unit, make .empty (.text "1") (.ok .passthrough) (.dict es) namespaces = .ok q ∧
      Accepted q.namespaces (es.map (·.1)) ∧ Keeps .empty q es ∧
      q.resolveVariable scope none (some "p") "name" = .ok (.int 4) ∧
      q.resolveVariable scope none none "plain" = .ok (.int 5) := by
  intro namespaces es scope
  let d : Namespace := ⟨"", "urn:d", by decide, by decide, by decide⟩
  let p : Namespace := ⟨"p", "urn:p", by decide, by decide, by decide⟩
  let q : Query Unit := ⟨"1", .passthrough, [d, p], [(⟨"urn:p", "pair"⟩, .int 1),
    (⟨"", "bare"⟩, .int 2), (⟨"urn:q", "clark"⟩, .int 3), (⟨"urn:p", "name"⟩, .int 4),
    (⟨"urn:d", "plain"⟩, .int 5)]⟩
  have hn : ∀ b ∈ es, IsName b.1 := by
    simp only [es, List.forall_mem_cons, List.not_mem_nil, false_implies, implies_true, and_true]
    exact ⟨.pair _ (.text _), .pair _ .none, .text _, .text _, .text _⟩
  have hbound : Bindings.collect .empty namespaces = .ok [d, p] := rfl
  have hq : make .empty (.text "1") (.ok .passthrough) (.dict es) namespaces = .ok q := rfl
  have hexpression : ∃ c ∈ "1".toList, Text.isBlank c = false := ⟨'1', by decide, by decide⟩
  obtain ⟨haccepted, hkeeps⟩ := names_meet .passthrough hexpression hbound hn
  obtain ⟨-, hkeeps⟩ := hkeeps q hq
  have hname : Spelled (.text "p:name") (some "p") "name" :=
    .prefixed (p := "p") (l := "name") (by decide) (by decide)
  have hplain : Spelled (.text "plain") none "plain" := .plain (by decide) (by decide)
  exact ⟨q, hq, haccepted.1 ⟨q, hq⟩, hkeeps,
    hkeeps.spelled (.text "p:name", .int 4) (by simp [es]) _ _ hname scope,
    hkeeps.spelled (.text "plain", .int 5) (by simp [es]) _ _ hplain scope⟩

end Query

end TreeQuery
