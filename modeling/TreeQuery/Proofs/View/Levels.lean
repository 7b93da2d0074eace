import TreeQuery.Proofs.Lookup
import TreeQuery.Proofs.View.Steps

/-!
# Levels of a view

What the levels around a node bind is what the innermost of them declares first (`lookupPrefix_eq`).
A new level declares what an element introduces and nothing else (`Navigator.declareAll_eq_ok`): the
names of the element and of its attributes are written with prefixes that are bound by then, so no
prefix is made up for them.
-/

namespace TreeQuery

variable {levels outer : List ViewLevel} {level level' : ViewLevel} {p uri : String}
  {b : String × String}

/-- What levels declare, the innermost first. -/
def declaredBy (levels : List ViewLevel) : List (String × String) := levels.flatMap (·.declared)

theorem lookupPrefix_eq (levels : List ViewLevel) (p : String) :
    lookupPrefix levels p = (declaredBy levels).lookup p := by
  induction levels with
  | nil => rfl
  | cons level outer ih =>
    rw [lookupPrefix, List.findSome?_cons, declaredBy, List.flatMap_cons, List.lookup_append,
      ← declaredBy, ← ih]
    cases level.declared.lookup p <;> rfl

theorem lookupPrefix_cons (level : ViewLevel) (outer : List ViewLevel) (p : String) :
    lookupPrefix (level :: outer) p = (level.declared.lookup p).or (lookupPrefix outer p) := by
  rw [lookupPrefix, List.findSome?_cons]
  cases level.declared.lookup p <;> rfl

/-- The bindings in scope are those that are found, each prefix once. -/
theorem bindingsOf_spec (levels : List ViewLevel) : ((bindingsOf levels).map (·.1)).Nodup ∧
    ∀ b, b ∈ bindingsOf levels ↔ lookupPrefix levels b.1 = some b.2 := by
  -- what has been found answers for all prefixes that were seen
  have hfold (l found : List (String × String)) (hf : (found.map (·.1)).Nodup) :
      let all := l.foldl
        (fun found b => if (found.lookup b.1).isSome then found else found ++ [b]) found
      (all.map (·.1)).Nodup ∧ ∀ p, all.lookup p = (found ++ l).lookup p := by
    induction l generalizing found with
    | nil => exact ⟨hf, fun p => by rw [List.append_nil]; rfl⟩
    | cons c l ih =>
      rw [List.foldl_cons]
      split
      · next hc =>
        obtain ⟨hnodup, hlookup⟩ := ih found hf
        refine ⟨hnodup, fun p => (hlookup p).trans ?_⟩
        rw [List.lookup_append, List.lookup_append, List.lookup_cons]
        by_cases hp : p = c.1
        · subst hp
          obtain ⟨u, hu⟩ := Option.isSome_iff_exists.1 hc
          rw [hu]
          rfl
        · rw [beq_false_of_ne hp]
      · next hc =>
        have hnew : c.1 ∉ found.map (·.1) := by
          intro hm
          obtain ⟨d, hd, he⟩ := List.mem_map.1 hm
          rw [(lookup_eq_some_iff_mem hf).2 (he ▸ hd : (c.1, d.2) ∈ found)] at hc
          exact hc rfl
        obtain ⟨hnodup, hlookup⟩ := ih (found ++ [c]) (by
          rw [List.map_append, List.map_singleton]
          exact List.nodup_append.2 ⟨hf, List.nodup_singleton _, fun a ha d hd => by
            rw [List.mem_singleton.1 hd]
            exact ne_of_mem_of_not_mem ha hnew⟩)
        refine ⟨hnodup, fun p => (hlookup p).trans ?_⟩
        rw [List.append_assoc, List.singleton_append]
  obtain ⟨hnodup, hlookup⟩ := hfold (declaredBy levels) [] List.nodup_nil
  refine ⟨hnodup, fun b => ?_⟩
  rw [lookupPrefix_eq, ← List.nil_append (declaredBy levels), ← hlookup]
  exact (lookup_eq_some_iff_mem hnodup).symm

theorem prefixOf?_isSome {forAttribute : Bool} (h : lookupPrefix levels p = some uri)
    (hp : forAttribute = true → p ≠ "") : (prefixOf? levels forAttribute uri).isSome = true := by
  unfold prefixOf?
  split
  · rfl
  · rw [Option.isSome_map, List.find?_isSome]
    have hmem : (p, uri) ∈ levels.flatMap fun l => l.declared ++ l.own.toList := by
      rw [lookupPrefix_eq] at h
      obtain ⟨l, hl, hb⟩ := List.mem_flatMap.1 (mem_of_lookup h)
      exact List.mem_flatMap.2 ⟨l, hl, List.mem_append_left _ hb⟩
    refine ⟨(p, uri), hmem, ?_⟩
    cases forAttribute with
    | false => simp [h]
    | true => simp [h, hp rfl]

namespace Navigator

open Text

variable {n n' : Navigator}

/-- The prefixes of some levels can write a name in a namespace: the namespace is `xml`, or its
prefix is bound to its URI. -/
def Writes (levels : List ViewLevel) (ns : Namespace) : Prop :=
  ns = Namespace.xml ∨ lookupPrefix levels ns.pfx = some ns.uri

theorem settle_of_writes {forAttribute : Bool} {ns : Namespace} (h : Writes (level :: outer) ns)
    (hp : forAttribute = true → ns.pfx ≠ "") :
    (settle outer level forAttribute ns.uri).1 = level := by
  have hsome : (prefixOf? (level :: outer) forAttribute ns.uri).isSome = true := by
    rcases h with rfl | h
    · rfl
    · exact prefixOf?_isSome h hp
  obtain ⟨q, hq⟩ := Option.isSome_iff_exists.1 hsome
  rw [settle, hq]

/-- After some bindings have been declared they go before what was bound. -/
theorem declareAll_eq_ok {bs : List (String × String)} (hbs : (bs.map (·.1)).Nodup)
    (hnew : ∀ b ∈ bs, level.declared.lookup b.1 = none)
    (h : (declareAll outer uri level bs).run n = (.ok level', n')) (p : String) :
    lookupPrefix (level' :: outer) p = (bs.lookup p).or (lookupPrefix (level :: outer) p) := by
  induction bs generalizing level n with
  | nil =>
    cases h
    rfl
  | cons b bs ih =>
    obtain ⟨q, u⟩ := b
    rw [List.map_cons, List.nodup_cons] at hbs
    obtain ⟨hq, hbs⟩ := hbs
    have hlater (c : String × String) (hc : c ∈ bs) : q ≠ c.1 := fun he =>
      hq (List.mem_map.2 ⟨c, hc, he.symm⟩)
    have hnone : bs.lookup q = none := List.lookup_eq_none_iff.2 fun c hc =>
      bne_iff_ne.2 (hlater c hc)
    rw [declareAll_cons] at h
    obtain ⟨_, m₁, -, h₁⟩ := run_bind_eq_ok h
    obtain ⟨_, m₂, -, h₂⟩ := run_bind_eq_ok h₁
    obtain ⟨_, m₃, -, h₃⟩ := run_bind_eq_ok h₂
    by_cases hbound : lookupPrefix (level :: outer) q = some u
    · -- the prefix is bound already
      have hsame : (declare outer uri level (q, u)).declared = level.declared :=
        if_pos (beq_iff_eq.2 hbound)
      rw [ih hbs (fun c hc => hsame ▸ hnew c (List.mem_cons_of_mem _ hc)) h₃, lookupPrefix_cons,
        hsame, ← lookupPrefix_cons, List.lookup_cons]
      by_cases hp : p = q
      · rw [hp, hnone, hbound, beq_self_eq_true]
        rfl
      · rw [beq_false_of_ne hp]
    · have hmore : (declare outer uri level (q, u)).declared = level.declared ++ [(q, u)] :=
        if_neg (mt beq_iff_eq.1 hbound)
      have hnew' (c) (hc : c ∈ bs) :
          (declare outer uri level (q, u)).declared.lookup c.1 = none := by
        rw [hmore, List.lookup_append, hnew c (List.mem_cons_of_mem _ hc), List.lookup_cons,
          beq_false_of_ne (hlater c hc).symm]
        rfl
      rw [ih hbs hnew' h₃, lookupPrefix_cons, hmore, lookupPrefix_cons, List.lookup_append,
        List.lookup_cons, List.lookup_cons]
      by_cases hp : p = q
      · rw [hp, hnone, hnew _ List.mem_cons_self, beq_self_eq_true]
        rfl
      · rw [beq_false_of_ne hp, List.lookup_nil, Option.or_none]

/-- The level of an element declares what the element introduces, if that is enough to write its
name. -/
theorem elementLevel_eq_ok {ns : Namespace} {name : String} {introduced : List Namespace}
    (hbs : ((declarations introduced).map (·.1)).Nodup)
    (hns : ns.uri ≠ "" → ns = Namespace.xml ∨
      ((declarations introduced).lookup ns.pfx).or (lookupPrefix outer ns.pfx) = some ns.uri)
    (h : (elementLevel outer ⟨ns.uri, name⟩ introduced).run n = (.ok level', n')) (p : String) :
    lookupPrefix (level' :: outer) p =
      ((declarations introduced).lookup p).or (lookupPrefix outer p) := by
  unfold elementLevel at h
  obtain ⟨level, m, hlevel, h⟩ := run_bind_eq_ok h
  have hdeclared := declareAll_eq_ok hbs (fun _ _ => rfl) hlevel
  split at h
  · obtain rfl : level = level' := by
      cases h
      rfl
    exact hdeclared p
  · next hown =>
    have hwrites : Writes (level :: outer) ns :=
      (hns fun he => hown (by rw [he]; rfl)).imp_right fun hp => (hdeclared ns.pfx).trans hp
    have hsettle : (settle outer level false ns.uri).1 = level :=
      settle_of_writes hwrites fun h => nomatch h
    have hlast {l : ViewLevel} (h : (pure l : M ViewLevel).run m = (.ok level', n'))
        (hl : l.declared = (settle outer level false ns.uri).1.declared) :
        lookupPrefix (level' :: outer) p =
          ((declarations introduced).lookup p).or (lookupPrefix outer p) := by
      obtain rfl : l = level' := Except.ok.inj (congrArg Prod.fst h)
      rw [lookupPrefix_cons, hl, hsettle, ← lookupPrefix_cons]
      exact hdeclared p
    dsimp only at h
    cases hr : Uri.isReference ns.uri with
    | false =>
      rw [hr] at h
      cases h
    | true =>
      rw [hr] at h
      exact hlast h rfl

/-- Attributes need no more than is bound. -/
theorem buildAttributes_eq_level {as : List Attr} {vas : List ViewAttribute}
    (hn : ∀ a ∈ as, isName a.name.toList = true)
    (has : ∀ a ∈ as, a.ns.uri ≠ "" → Writes (level :: outer) a.ns ∧ a.ns.pfx ≠ "")
    (h : (buildAttributes outer level as).run n = (.ok (level', vas), n')) : level' = level := by
  induction as generalizing vas n with
  | nil =>
    cases h
    rfl
  | cons a as ih =>
    obtain ⟨name, m, hname, h⟩ := run_bind_eq_ok h
    obtain rfl := readName_eq_ok (hn a List.mem_cons_self) hname
    obtain ⟨-, m', -, h⟩ := run_bind_eq_ok h
    obtain ⟨⟨level₁, rest⟩, m₁, hrest, h⟩ := run_bind_eq_ok h
    cases h
    have hsame : (if a.ns.uri = "" then (level, "") else settle outer level true a.ns.uri).1 =
        level := by
      split
      · rfl
      · next hu =>
        obtain ⟨hwrites, hp⟩ := has a List.mem_cons_self hu
        exact settle_of_writes hwrites fun _ => hp
    have hrest' : (buildAttributes outer level as).run m' = (.ok (level', rest), n') := by
      rw [← hrest]
      exact congrArg (fun l => (buildAttributes outer l as).run m') hsame.symm
    exact ih (fun b hb => hn b (List.mem_cons_of_mem _ hb))
      (fun b hb => has b (List.mem_cons_of_mem _ hb)) hrest'

end Navigator

end TreeQuery
