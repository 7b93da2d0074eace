import TreeQuery.Proofs.View.Building
import TreeQuery.Proofs.View.Sound

/-!
# Returned results

What an engine returns of the views that it was given can be taken back to the trees
(`Navigator.Sound.toTree`). An attribute is found by its name in braces. In no namespace its name may
itself begin with braces that hold nothing; it is then known to the engine without them, and not
found (`Forest.Misread`).
-/

namespace TreeQuery

/-- An attribute in no namespace whose name is `key` after braces that hold nothing, on an element
of which no attribute has the name `key`. -/
def Forest.Misread (f : Forest) (key : String) : Prop :=
  ∃ id a x, a ∈ f.attributes id ∧ f.attr? a = some x ∧ x.ns.uri = "" ∧
    x.name = "\x7b\x7d" ++ key ∧ ∀ b ∈ f.attributes id, f.clarkName b ≠ key

theorem Namespace.ofValues_of_valid (ns : Namespace) {p : Value}
    (hp : p = .text ns.pfx ∨ p = .none ∧ ns.pfx = "") :
    Namespace.ofValues (if p.truthy then p else .none) (.text ns.uri) = .ok ns := by
  have hmake : (Namespace.make ns.pfx ns.uri).mapError Failure.badNamespace = .ok ns := by
    rw [Namespace.make_eq_ok_iff.2 ⟨rfl, rfl⟩]
    rfl
  by_cases he : ns.pfx = ""
  · rw [he] at hmake
    rcases hp with rfl | ⟨rfl, -⟩
    · rw [he]
      exact hmake
    · exact hmake
  · obtain rfl := hp.resolve_right fun h => he h.2
    have ht : (Value.text ns.pfx).truthy = true := bne_iff_ne.2 he
    rw [if_pos ht]
    exact hmake

namespace Navigator

open XPath (Branch)

variable {f : Forest} {n : Navigator} {i : RawItem}

/-- What an engine may return: a part of a view that was made for it, a value other than a pair, or a
pair of a prefix, or nothing for the empty one, and the URI that it is bound to. -/
inductive Returnable (n : Navigator) : RawItem → Prop where
  | part {d : ViewDocument} {i : RawItem} : d ∈ n.documents →
      i ∈ Branch.itemsAll (d.map Branch.ofView) → Returnable n i
  | value {v : Value} : (∀ vs, v ≠ .tuple vs) → Returnable n (.value v)
  | binding (ns : Namespace) {p : Value} : p = .text ns.pfx ∨ p = .none ∧ ns.pfx = "" →
      Returnable n (.value (.tuple [p, .text ns.uri]))

/-- What is known of a part of a view is found, unless it is an attribute that is known by another
name than its own. -/
theorem toTree_of_resolves (h : Resolves n f i) : (∃ v, n.toTree f i = .ok v) ∨
    ∃ key, f.Misread key ∧ n.toTree f i = .error (.missing (.value (.text key))) := by
  cases h with
  | view hv => exact .inl ⟨_, toTree_view hv⟩
  | text hs => exact .inl ⟨_, by rw [toTree, hs]⟩
  | @attr v id a x name s hv ha hx hread hname =>
    cases hfind : (f.attributes id).find? fun a => f.clarkName a == name.clark with
    | some b => exact .inl ⟨_, toTree_attr hv hfind⟩
    | none =>
      have hno (b : NodeId) (hb : b ∈ f.attributes id) : f.clarkName b ≠ name.clark := by
        simpa using List.find?_eq_none.1 hfind b hb
      rcases ExpandedName.eq_or_braces hread hname with he | ⟨huri, he⟩
      · exact absurd ((Forest.clarkName_of_attr? hx).trans he) (hno a ha)
      · refine .inr ⟨name.clark, ⟨id, a, x, ha, hx, huri, he, hno⟩, ?_⟩
        have hnode : n.nodeOf v = pure id := by
          rw [nodeOf, hv]
          rfl
        rw [toTree, hnode, pure_bind, hfind]

/-- Whatever an engine returns is found in the tree, unless it is such an attribute. -/
theorem Sound.toTree (h : Sound f n) (hi : Returnable n i) : (∃ v, n.toTree f i = .ok v) ∨
    ∃ key, f.Misread key ∧ n.toTree f i = .error (.missing (.value (.text key))) := by
  cases hi with
  | part hd hi => exact toTree_of_resolves (h.items _ hd i hi)
  | @value v hv =>
    refine .inl ⟨v, ?_⟩
    cases v with
    | tuple vs => exact absurd rfl (hv vs)
    | _ => rfl
  | binding ns hp =>
    refine .inl ⟨.nsNode ns none, ?_⟩
    rw [Navigator.toTree, Value.pair]
    show (Namespace.ofValues _ _ >>= fun ns => Except.ok (Value.nsNode ns none)) = _
    rw [Namespace.ofValues_of_valid ns hp]
    rfl

end Navigator

end TreeQuery
