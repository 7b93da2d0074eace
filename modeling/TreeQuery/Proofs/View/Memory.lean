import TreeQuery.Proofs.View.Steps

/-!
# What a navigator remembers

While a view is built, every step adds to what the navigator knows and keeps what it knew
(`Navigator.Grows`). The views of nodes and the nodes of views stay inverse to each other
(`Navigator.Tidy`).
-/

namespace TreeQuery

theorem lookup_filter_ne {α β : Type} [BEq α] [LawfulBEq α] {k k' : α} (h : k' ≠ k)
    (l : List (α × β)) : (l.filter fun e => e.1 != k).lookup k' = l.lookup k' := by
  induction l with
  | nil => rfl
  | cons e l ih =>
    rw [List.filter_cons]
    by_cases he : e.1 = k
    · have hb : (e.1 != k) = false := bne_eq_false_iff_eq.2 he
      rw [hb, if_neg Bool.false_ne_true, ih, List.lookup_cons, beq_false_of_ne (he ▸ h)]
    · rw [if_pos (bne_iff_ne.2 he), List.lookup_cons, List.lookup_cons, ih]

theorem lookup_assign {α β : Type} [BEq α] [LawfulBEq α] [DecidableEq α] (k : α) (v : β)
    (l : List (α × β)) (k' : α) :
    (assign k v l).lookup k' = if k' = k then some v else l.lookup k' := by
  rw [assign, List.lookup_cons]
  by_cases h : k' = k
  · rw [if_pos h, beq_iff_eq.2 h]
  · rw [if_neg h, beq_false_of_ne h, lookup_filter_ne h]

namespace Navigator

variable {n n' m : Navigator} {slot : Slot} {id : NodeId}

/-- Views that were made are below the next one, and views and nodes know each other. -/
structure Tidy (n : Navigator) : Prop where
  nodes_lt : ∀ {v id}, n.nodes.lookup v = some id → v < n.next
  texts_lt : ∀ {s id}, n.texts.lookup s = some id → s.view < n.next
  inverse : ∀ {v id}, n.nodes.lookup v = some id ↔ n.views.lookup id = some v

theorem tidy_reset (n : Navigator) : Tidy n.reset :=
  ⟨nofun, nofun, ⟨nofun, nofun⟩⟩

/-- What one navigator can take to the tree, the other takes there as well. -/
structure Knows (n n' : Navigator) : Prop where
  nodes : ∀ {v id}, n.nodes.lookup v = some id → n'.nodes.lookup v = some id
  texts : ∀ {s id}, n.texts.lookup s = some id → n'.texts.lookup s = some id

theorem Knows.refl (n : Navigator) : Knows n n := ⟨id, id⟩

theorem Knows.trans (h : Knows n n') (h' : Knows n' m) : Knows n m :=
  ⟨fun hv => h'.nodes (h.nodes hv), fun hs => h'.texts (h.texts hs)⟩

/-- What changes while views of `ids` are made: these nodes get views, new views get texts, and
`slot` may get one. -/
structure Grows (slot : Option Slot) (ids : List NodeId) (n n' : Navigator) : Prop where
  next_le : n.next ≤ n'.next
  knows : Knows n n'
  blank : ∀ s : Slot, s.view < n.next → some s ≠ slot → n.texts.lookup s = none →
    n'.texts.lookup s = none
  others : ∀ id ∉ ids, n'.views.lookup id = n.views.lookup id
  documents : n'.documents = n.documents

theorem Grows.refl (slot : Option Slot) (ids : List NodeId) (n : Navigator) :
    Grows slot ids n n :=
  ⟨Nat.le_refl _, .refl n, fun _ _ _ h => h, fun _ _ => rfl, rfl⟩

theorem Grows.mono {o : Option Slot} {ids ids' : List NodeId} (h : Grows o ids n n')
    (hs : ids ⊆ ids') : Grows o ids' n n' :=
  { h with others := fun id hid => h.others id fun hm => hid (hs hm) }

theorem Grows.trans {o o' : Option Slot} {ids ids' : List NodeId} (h : Grows o ids n n')
    (h' : Grows o' ids' n' m) (ho : ∀ s, o' = some s → n.next ≤ s.view ∨ o = some s) :
    Grows o (ids ++ ids') n m where
  next_le := h.next_le.trans h'.next_le
  knows := h.knows.trans h'.knows
  blank := fun s hs hne hb => by
    refine h'.blank s (hs.trans_le h.next_le) (fun he => ?_) (h.blank s hs hne hb)
    rcases ho s he.symm with hle | hsome
    · exact absurd hs (Nat.not_lt.2 hle)
    · exact hne hsome.symm
  others := fun id hid => by
    rw [List.mem_append, not_or] at hid
    rw [h'.others id hid.2, h.others id hid.1]
  documents := h'.documents.trans h.documents

/-! ## A new view -/

/-- The navigator after a view has been made of a node. -/
def remembered (n : Navigator) (id : NodeId) : Navigator :=
  { n with
    views := assign id n.next n.views
    nodes := assign n.next id n.nodes
    next := n.next + 1 }

theorem run_remember (n : Navigator) (id : NodeId) :
    (remember id).run n = (.ok n.next, n.remembered id) := rfl

theorem nodes_remembered (n : Navigator) (id : NodeId) (v : ViewId) :
    (n.remembered id).nodes.lookup v = if v = n.next then some id else n.nodes.lookup v :=
  lookup_assign ..

theorem lookup_remembered (n : Navigator) (id : NodeId) :
    (n.remembered id).nodes.lookup n.next = some id := by
  rw [nodes_remembered, if_pos rfl]

theorem views_remembered (n : Navigator) (id x : NodeId) :
    (n.remembered id).views.lookup x = if x = id then some n.next else n.views.lookup x :=
  lookup_assign ..

theorem Tidy.remembered (h : Tidy n) (hid : n.views.lookup id = none) : Tidy (n.remembered id) where
  nodes_lt := fun {v x} hv => by
    rw [nodes_remembered] at hv
    split at hv
    · next he => exact he ▸ Nat.lt_succ_self _
    · exact Nat.lt_succ_of_lt (h.nodes_lt hv)
  texts_lt := fun hs => Nat.lt_succ_of_lt (h.texts_lt hs)
  inverse := fun {v x} => by
    rw [nodes_remembered, views_remembered]
    by_cases hv : v = n.next
    · subst hv
      by_cases hx : x = id
      · rw [if_pos rfl, if_pos hx, hx]
        simp
      · rw [if_pos rfl, if_neg hx, ← h.inverse]
        exact ⟨fun he => absurd (Option.some.inj he).symm hx,
          fun he => absurd (h.nodes_lt he) (Nat.lt_irrefl _)⟩
    · rw [if_neg hv, h.inverse]
      by_cases hx : x = id
      · rw [if_pos hx, hx, hid]
        exact ⟨nofun, fun he => absurd (Option.some.inj he).symm hv⟩
      · rw [if_neg hx]

theorem Tidy.grows_remembered (h : Tidy n) (id : NodeId) :
    Grows none [id] n (n.remembered id) where
  next_le := Nat.le_succ _
  knows := ⟨fun {v x} hv => by rw [nodes_remembered, if_neg (h.nodes_lt hv).ne, hv], fun hs => hs⟩
  blank := fun _ _ _ hb => hb
  others := fun x hx => by rw [views_remembered, if_neg (mt List.mem_singleton.2 hx)]
  documents := rfl

theorem Tidy.blank_remembered (h : Tidy n) (id : NodeId) (isTail : Bool) :
    (n.remembered id).texts.lookup ⟨n.next, isTail⟩ = none := by
  cases ht : n.texts.lookup ⟨n.next, isTail⟩ with
  | none => exact ht
  | some x => exact absurd (h.texts_lt ht) (Nat.lt_irrefl _)

/-! ## A new text -/

/-- The navigator after a text of a view has been made of a text node. -/
def withText (n : Navigator) (slot : Slot) (id : NodeId) : Navigator :=
  { n with texts := assign slot id n.texts }

theorem texts_withText (n : Navigator) (slot s : Slot) (id : NodeId) :
    (n.withText slot id).texts.lookup s = if s = slot then some id else n.texts.lookup s :=
  lookup_assign ..

theorem Tidy.withText (h : Tidy n) (hs : slot.view < n.next) (id : NodeId) :
    Tidy (n.withText slot id) where
  nodes_lt := h.nodes_lt
  texts_lt := fun {s x} hx => by
    rw [texts_withText] at hx
    split at hx
    · next he => exact he ▸ hs
    · exact h.texts_lt hx
  inverse := h.inverse

theorem grows_withText (hb : n.texts.lookup slot = none) (id : NodeId) :
    Grows (some slot) [] n (n.withText slot id) where
  next_le := Nat.le_refl _
  knows := ⟨fun hv => hv, fun {s x} hx => by
    rw [texts_withText, if_neg, hx]
    rintro rfl
    rw [hb] at hx
    cases hx⟩
  blank := fun s _ hne hx => by rw [texts_withText, if_neg fun he => hne (congrArg some he), hx]
  others := fun _ _ => rfl
  documents := rfl

end Navigator

end TreeQuery
