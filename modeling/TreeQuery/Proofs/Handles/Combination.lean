import TreeQuery.Proofs.Rewriting.Edit
import TreeQuery.Query.Engine

/-!
# Requests of combinations

What an engine should be asked follows from the query, the URIs that a scope gives to the prefixes
the query leaves unbound, and whether a document is searched (`Query.requestIn`). This is what is
asked under the key of a handle (`request_handleKey`), and different keys ask for different things
(`request_injective`), so a handle is never taken for another.
-/

namespace TreeQuery

open XPath

/-! ## Requests in a scope -/

/-- The URI of a prefix in a scope, empty if there is none. -/
def uriIn (scope : List (String × String)) (pfx : String) : String :=
  (scope.lookup pfx).getD ""

namespace Query

variable {σ : Type}

/-- Whether a prefix is left to the scope of an evaluation. -/
def isOpen (q : Query σ) (pfx : String) : Bool :=
  pfx != "xml" && (Bindings.find? q.namespaces pfx).isNone

/-- How a name is written without its prefix. All names of a prefix become all names in no
namespace; the name of a function stays. -/
def unprefixed? (n : QualifiedName) : Option Replacement :=
  match n.use with
  | .name => some ⟨n.start, n.stop, n.localName⟩
  | .wildcard => some ⟨n.start, n.stop, "*[namespace-uri()='']"⟩
  | .function => none

/-- What an engine should be asked in a scope, for a document or not. The prefixes that are left
open and have no URI there are dropped. -/
def requestIn (q : Query σ) (ts : List Token) (scope : List (String × String))
    (isDocument : Bool) : Request where
  text := splice q.expression
    (Plan.renamesOf (Plan.variablesOf (variableReferences ts)) (variableReferences ts) ++
      (if isDocument then Plan.anchorsOf ts else []) ++
      ((qualifiedNames ts).filter fun n => q.isOpen n.pfx && uriIn scope n.pfx == "").filterMap
        unprefixed?)
  namespaces :=
    ((q.namespaces.filter fun n => n.pfx != "" && n.pfx != "xml").map fun n => (n.pfx, n.uri)) ++
      ((Plan.unboundOf q.namespaces (qualifiedNames ts)).map fun x => (x, uriIn scope x)).filter
        (·.2 != "")

end Query

/-! ## Unbound prefixes -/

namespace Plan

theorem mem_insertPrefix {x p : String} {ps : List String} :
    x ∈ insertPrefix p ps ↔ x = p ∨ x ∈ ps := by
  induction ps with
  | nil => simp [insertPrefix]
  | cons q qs ih =>
    unfold insertPrefix
    split
    · exact List.mem_cons
    · split
      · rename_i h
        subst h
        simp
      · rw [List.mem_cons, ih, List.mem_cons]
        exact or_left_comm

theorem mem_unboundOf {bound : List Namespace} {names : List QualifiedName} {x : String} :
    x ∈ unboundOf bound names ↔
      (∃ n ∈ names, n.pfx = x) ∧ (x != "xml" && (Bindings.find? bound x).isNone) = true := by
  have hfold (ps : List String) : x ∈ ps.foldr insertPrefix [] ↔ x ∈ ps := by
    induction ps with
    | nil => rfl
    | cons p ps ih => rw [List.foldr_cons, mem_insertPrefix, ih, List.mem_cons]
  rw [unboundOf, hfold, List.mem_filter, List.mem_map]

end Plan

namespace Query

variable {σ : Type}

theorem mem_unboundOf_iff {q : Query σ} {names : List QualifiedName} {x : String} :
    x ∈ Plan.unboundOf q.namespaces names ↔ (∃ n ∈ names, n.pfx = x) ∧ q.isOpen x = true :=
  Plan.mem_unboundOf

theorem dropPrefix?_eq_unprefixed? : Plan.dropPrefix? = unprefixed? := by
  funext n
  rw [Plan.dropPrefix?, unprefixed?]
  cases n.use <;> rfl

theorem resolvePrefix_of_isOpen {q : Query σ} {x : String} (h : q.isOpen x = true)
    (scope : List (String × String)) : q.resolvePrefix scope (some x) = uriIn scope x := by
  have hnone : Bindings.find? q.namespaces ((some x).getD "") = none :=
    Option.isNone_iff_eq_none.1 (Bool.and_eq_true_iff.1 h).2
  unfold resolvePrefix
  rw [hnone]
  rfl

/-- Scopes that agree on the prefixes a query leaves open ask the same. -/
theorem requestIn_congr {q : Query σ} {ts : List Token} {scope scope' : List (String × String)}
    {isDocument : Bool} (h : ∀ x, q.isOpen x = true → uriIn scope x = uriIn scope' x) :
    q.requestIn ts scope isDocument = q.requestIn ts scope' isDocument := by
  have hdrop : (qualifiedNames ts).filter (fun n => q.isOpen n.pfx && uriIn scope n.pfx == "") =
      (qualifiedNames ts).filter fun n => q.isOpen n.pfx && uriIn scope' n.pfx == "" := by
    refine List.filter_congr fun n _ => ?_
    cases hn : q.isOpen n.pfx with
    | false => rfl
    | true => rw [h _ hn]
  have huris : (Plan.unboundOf q.namespaces (qualifiedNames ts)).map (fun x => (x, uriIn scope x)) =
      (Plan.unboundOf q.namespaces (qualifiedNames ts)).map fun x => (x, uriIn scope' x) := by
    refine List.map_congr_left fun x hx => ?_
    rw [h x (mem_unboundOf_iff.1 hx).2]
  rw [requestIn, requestIn, hdrop, huris]

end Query

/-! ## Keys -/

namespace Plan

/-- A key that some scope gives: it has a URI, maybe the empty one, for each unbound prefix, and is
anchored only if that matters. -/
structure IsKey (p : Plan) (key : HandleKey) : Prop where
  resolved : ∃ uriOf : String → String, key.resolved = p.unbound.map fun x => (x, uriOf x)
  anchored : key.anchored = true → p.anchors ≠ []

/-- Which URIs prefixes have is seen in the namespaces, where those without one are missing. -/
theorem map_uri_injective {ps : List String} {uriOf uriOf' : String → String}
    (h : (ps.map fun x => (x, uriOf x)).filter (·.2 != "") =
      (ps.map fun x => (x, uriOf' x)).filter (·.2 != "")) :
    (ps.map fun x => (x, uriOf x)) = ps.map fun x => (x, uriOf' x) := by
  have hgiven {uriOf uriOf' : String → String} {x : String} (hx : x ∈ ps) (hne : uriOf x ≠ "")
      (h : (ps.map fun x => (x, uriOf x)).filter (·.2 != "") =
        (ps.map fun x => (x, uriOf' x)).filter (·.2 != "")) : uriOf x = uriOf' x := by
    have hm : (x, uriOf x) ∈ (ps.map fun x => (x, uriOf x)).filter (·.2 != "") :=
      List.mem_filter.2 ⟨List.mem_map_of_mem hx, by simpa using hne⟩
    rw [h] at hm
    obtain ⟨y, -, hy⟩ := List.mem_map.1 (List.mem_filter.1 hm).1
    obtain ⟨rfl, hu⟩ := Prod.mk.inj hy
    exact hu.symm
  refine List.map_congr_left fun x hx => ?_
  by_cases hne : uriOf x = ""
  · by_cases hne' : uriOf' x = ""
    · rw [hne, hne']
    · rw [hgiven hx hne' h.symm]
  · rw [hgiven hx hne h]

theorem text_of_mem_anchorsOf {ts : List Token} {r : Replacement} (h : r ∈ anchorsOf ts) :
    0 < r.text.toList.length := by
  rcases List.mem_append.1 h with h | h
  · obtain ⟨x, -, rfl⟩ := List.mem_map.1 h
    exact (by decide : 0 < "/".toList.length)
  · obtain ⟨c, -, h⟩ := List.mem_flatMap.1 h
    rw [anchorCall_eq] at h
    rcases List.mem_append.1 h with h | h
    · rw [mem_openingOf h]
      exact (by decide : 0 < "(false() and ".toList.length)
    · rw [List.mem_singleton.1 h]
      rcases closingOf_eq c with he | he <;> rw [he]
      · exact (by decide : 0 < ")".toList.length)
      · exact (by decide : 0 < "/".toList.length)

theorem removed_anchorsOf (ts : List Token) : removed (anchorsOf ts) = 0 := by
  have hstop {rs : List Replacement} (h : ∀ r ∈ rs, r.stop = r.start) : removed rs = 0 := by
    induction rs with
    | nil => rfl
    | cons r rs ih =>
      rw [removed, h r List.mem_cons_self, Nat.sub_self, Nat.zero_add]
      exact ih fun r hr => h r (List.mem_cons_of_mem _ hr)
  exact hstop fun r hr => stop_of_mem_anchorsOf hr

theorem inserted_anchorsOf {ts : List Token} (h : anchorsOf ts ≠ []) :
    0 < inserted (anchorsOf ts) := by
  obtain ⟨r, rs, hr⟩ := List.exists_cons_of_ne_nil h
  have := text_of_mem_anchorsOf (hr ▸ List.mem_cons_self)
  rw [hr, inserted]
  omega

theorem length_splice_lt {ts : List Token} (text : String) (rs rs' : List Replacement)
    (h : anchorsOf ts ≠ []) : (splice text (rs ++ rs')).toList.length <
      (splice text (rs ++ anchorsOf ts ++ rs')).toList.length := by
  have hsub : (rs ++ rs').Sublist (rs ++ anchorsOf ts ++ rs') :=
    (List.sublist_append_left rs _).append (List.Sublist.refl rs')
  have hle := length_spliceFrom_le text.toList (Replacement.mergeSort_sublist hsub) 0
  have hpos := inserted_anchorsOf h
  have hzero := removed_anchorsOf ts
  rw [inserted_perm (List.mergeSort_perm _ _), inserted_perm (List.mergeSort_perm _ _),
    removed_perm (List.mergeSort_perm _ _), removed_perm (List.mergeSort_perm _ _)] at hle
  simp only [inserted_append, removed_append] at hle
  rw [splice, splice, String.toList_ofList, String.toList_ofList]
  omega

/-- Different keys ask for different things. -/
theorem request_injective {p : Plan} {ts : List Token} (hp : p.anchors = anchorsOf ts)
    {key key' : HandleKey} (hk : p.IsKey key) (hk' : p.IsKey key')
    (h : p.request key.resolved key.anchored = p.request key'.resolved key'.anchored) :
    key = key' := by
  obtain ⟨r, a⟩ := key
  obtain ⟨r', a'⟩ := key'
  obtain ⟨uriOf, rfl⟩ : ∃ uriOf : String → String, r = p.unbound.map fun x => (x, uriOf x) :=
    hk.resolved
  obtain ⟨uriOf', rfl⟩ : ∃ uriOf : String → String, r' = p.unbound.map fun x => (x, uriOf x) :=
    hk'.resolved
  have hr := map_uri_injective (List.append_cancel_left (congrArg Request.namespaces h))
  rw [hr] at h ⊢
  have hlt (hne : p.anchors ≠ []) := length_splice_lt p.expression p.renames
    ((p.names.filter fun q => isDropped (p.unbound.map fun x => (x, uriOf' x)) q.pfx).filterMap
      dropPrefix?) (hp ▸ hne)
  rw [← hp] at hlt
  have hlen := congrArg (fun r => r.text.toList.length) h
  cases a <;> cases a'
  · rfl
  · have := hlt (hk'.anchored rfl)
    simp only [request, replacements, Bool.false_eq_true, if_false, if_true, List.append_nil]
      at hlen
    omega
  · have := hlt (hk.anchored rfl)
    simp only [request, replacements, Bool.false_eq_true, if_false, if_true, List.append_nil]
      at hlen
    omega
  · rfl

end Plan

/-! ## Keys of evaluations -/

namespace CompiledQuery

variable {η σ : Type} {q : CompiledQuery η σ} {ts : List Token}

theorem resolvePrefixes_eq (hp : q.plan = Plan.make q.query.expression q.query.namespaces ts)
    (scope : List (String × String)) :
    q.resolvePrefixes scope = q.plan.unbound.map fun x => (x, uriIn scope x) := by
  refine List.map_congr_left fun x hx => ?_
  rw [hp] at hx
  rw [Query.resolvePrefix_of_isOpen (Query.mem_unboundOf_iff.1 hx).2]

theorem isKey_handleKey (hp : q.plan = Plan.make q.query.expression q.query.namespaces ts)
    (scope : List (String × String)) (isDocument : Bool) :
    q.plan.IsKey (handleKey q.plan (q.resolvePrefixes scope) isDocument) where
  resolved := ⟨uriIn scope, resolvePrefixes_eq hp scope⟩
  anchored h := by
    rw [handleKey, Bool.and_eq_true, Bool.not_eq_true', List.isEmpty_eq_false_iff] at h
    exact h.2

/-- The key of an evaluation asks for what should be asked there. -/
theorem request_handleKey (hp : q.plan = Plan.make q.query.expression q.query.namespaces ts)
    (scope : List (String × String)) (isDocument : Bool) :
    q.plan.request (handleKey q.plan (q.resolvePrefixes scope) isDocument).resolved
        (handleKey q.plan (q.resolvePrefixes scope) isDocument).anchored =
      q.query.requestIn ts scope isDocument := by
  have hdrop : ((qualifiedNames ts).filter fun n =>
      Plan.isDropped (q.plan.unbound.map fun x => (x, uriIn scope x)) n.pfx) =
        (qualifiedNames ts).filter fun n => q.query.isOpen n.pfx && uriIn scope n.pfx == "" := by
    refine List.filter_congr fun n hn => ?_
    rw [Plan.isDropped_resolved]
    congr 1
    rw [Bool.eq_iff_iff, List.contains_iff_mem, hp]
    exact Query.mem_unboundOf_iff.trans (and_iff_right ⟨n, hn, rfl⟩)
  have hanchors : (if (isDocument && !q.plan.anchors.isEmpty) = true then q.plan.anchors else []) =
      if isDocument = true then Plan.anchorsOf ts else [] := by
    have ha : q.plan.anchors = Plan.anchorsOf ts := hp ▸ rfl
    rw [ha]
    cases isDocument with
    | false => rfl
    | true => cases Plan.anchorsOf ts <;> rfl
  rw [Plan.request, Plan.replacements, handleKey, resolvePrefixes_eq hp, hanchors]
  rw [hp] at hdrop ⊢
  show Request.mk (splice _ (_ ++ _ ++ ((qualifiedNames ts).filter _).filterMap _)) _ = _
  rw [hdrop, Query.dropPrefix?_eq_unprefixed?]
  rfl

end CompiledQuery

end TreeQuery
