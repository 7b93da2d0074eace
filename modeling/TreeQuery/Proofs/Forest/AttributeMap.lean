import Mathlib.Data.List.Find
import Mathlib.Data.List.Induction
import TreeQuery.Proofs.Forest.Conflicts

/-!
# Attributes as a map

The attributes of an element are a map from names and namespace URIs to values that remembers the
order in which its keys came. Whatever calls build a forest, an element lists for every key the
attribute that was set last, in the place of the one that was set first
(`Forest.attributes_ordered`). All others have lost their parent.
-/

namespace TreeQuery

/-- What an attribute of an element is found by. -/
def Attr.key (x : Attr) : String × String := (x.name, x.ns.uri)

/-! ## Histories -/

section Histories

variable {l : List Attr} {x y : Attr} {k : String × String}

/-- The last of some attributes that has a key. -/
def latest (l : List Attr) (k : String × String) : Option Attr :=
  l.reverse.find? fun x => x.key == k

/-- The last attribute of every key, in the order in which the keys came first. -/
def latestInOrder (l : List Attr) : List Attr :=
  (l.map Attr.key).eraseDups.filterMap (latest l)

theorem latest_append (l : List Attr) (x : Attr) (k : String × String) :
    latest (l ++ [x]) k = if x.key = k then some x else latest l k := by
  rw [latest, List.reverse_append, List.reverse_singleton, List.singleton_append, List.find?_cons]
  by_cases hk : x.key = k
  · rw [if_pos hk, beq_iff_eq.2 hk]
  · rw [if_neg hk, beq_false_of_ne hk]
    rfl

theorem mem_of_latest (h : latest l k = some x) : x ∈ l ∧ x.key = k := by
  have hfound := List.find?_some h
  exact ⟨List.mem_reverse.1 (List.mem_of_find?_eq_some h), beq_iff_eq.1 hfound⟩

theorem exists_latest (h : k ∈ l.map Attr.key) : ∃ x, latest l k = some x := by
  obtain ⟨x, hx, hk⟩ := List.mem_map.1 h
  refine Option.isSome_iff_exists.1 (List.find?_isSome.2 ⟨x, List.mem_reverse.2 hx, ?_⟩)
  exact beq_iff_eq.2 hk

theorem mem_latestInOrder : x ∈ latestInOrder l ↔ latest l x.key = some x := by
  rw [latestInOrder, List.mem_filterMap]
  constructor
  · rintro ⟨k, -, hx⟩
    rwa [(mem_of_latest hx).2]
  · intro hx
    exact ⟨x.key, List.mem_eraseDups.2 (List.mem_map_of_mem (mem_of_latest hx).1), hx⟩

theorem mem_of_mem_latestInOrder (h : x ∈ latestInOrder l) : x ∈ l :=
  (mem_of_latest (mem_latestInOrder.1 h)).1

/-- The keys are in the order in which they came first. -/
theorem map_key_latestInOrder (l : List Attr) :
    (latestInOrder l).map Attr.key = (l.map Attr.key).eraseDups := by
  rw [latestInOrder, List.map_filterMap]
  refine (List.filterMap_congr fun k hk => ?_).trans List.filterMap_some
  obtain ⟨x, hx⟩ := exists_latest (List.mem_eraseDups.1 hk)
  rw [hx, Option.map_some, (mem_of_latest hx).2]

theorem nodup_eraseDups {α : Type} [BEq α] [LawfulBEq α] (l : List α) : l.eraseDups.Nodup := by
  induction l using List.reverseRecOn with
  | nil => exact List.nodup_nil
  | append_singleton l a ih =>
    rw [eraseDups_append_singleton]
    split
    · exact ih
    · next ha =>
      rw [← List.concat_eq_append]
      exact ih.concat (mt List.mem_eraseDups.1 ha)

theorem eq_of_mem_latestInOrder (hx : x ∈ latestInOrder l) (hy : y ∈ latestInOrder l)
    (hk : x.key = y.key) : x = y := by
  rw [mem_latestInOrder] at hx hy
  exact Option.some.inj (hx.symm.trans (hk ▸ hy))

/-- Searching by key among the latest attributes gives the latest one of the key. -/
theorem find?_latestInOrder (l : List Attr) (k : String × String) :
    (latestInOrder l).find? (fun x => x.key == k) = latest l k := by
  cases hx : latest l k with
  | some x =>
    obtain ⟨-, rfl⟩ := mem_of_latest hx
    cases hy : (latestInOrder l).find? (fun y => y.key == x.key) with
    | none => exact absurd (beq_iff_eq.2 rfl) (List.find?_eq_none.1 hy x (mem_latestInOrder.2 hx))
    | some y =>
      have hkey := List.find?_some hy
      rw [eq_of_mem_latestInOrder (List.mem_of_find?_eq_some hy) (mem_latestInOrder.2 hx)
        (beq_iff_eq.1 hkey)]
  | none =>
    refine List.find?_eq_none.2 fun y hy hk => ?_
    rw [mem_latestInOrder, beq_iff_eq.1 hk, hx] at hy
    cases hy

/-- One more attribute takes the place of the one with its key, or comes last. -/
theorem latestInOrder_append (l : List Attr) (x : Attr) : latestInOrder (l ++ [x]) =
    if x.key ∈ l.map Attr.key then (latestInOrder l).map fun y => if y.key = x.key then x else y
    else latestInOrder l ++ [x] := by
  have hold : (l.map Attr.key).eraseDups.filterMap (latest (l ++ [x])) =
      (latestInOrder l).map fun y => if y.key = x.key then x else y := by
    rw [latestInOrder, List.map_filterMap]
    refine List.filterMap_congr fun k hk => ?_
    obtain ⟨y, hy⟩ := exists_latest (List.mem_eraseDups.1 hk)
    rw [latest_append, hy, Option.map_some, (mem_of_latest hy).2]
    by_cases hkx : x.key = k
    · rw [if_pos hkx, if_pos hkx.symm]
    · rw [if_neg hkx, if_neg (Ne.symm hkx)]
  rw [latestInOrder, List.map_append, List.map_singleton, eraseDups_append_singleton]
  split
  · exact hold
  · next hx =>
    have hkept : (latestInOrder l).map (fun y => if y.key = x.key then x else y) =
        latestInOrder l := by
      refine (List.map_congr_left fun y hy => if_neg fun hk => hx ?_).trans (List.map_id _)
      rw [← hk]
      exact List.mem_map_of_mem (mem_of_mem_latestInOrder hy)
    rw [List.filterMap_append, hold, hkept, List.filterMap_cons, latest_append, if_pos rfl,
      List.filterMap_nil]

end Histories

namespace Forest

variable {f g : Forest} {id a : NodeId} {e : ElementData} {l : List Attr} {x : Attr}

/-! ## Attributes given to an element -/

/-- The attribute that a call gives an element, if it gives it one. -/
def given? (f : Forest) (id : NodeId) : Call → Option Attr
  | .setAttribute element name value ns =>
    match f.setAttribute element name value ns, f.textOf value with
    | .ok (_, a), .ok text => if element = id then some ⟨a, name.getD "", text, ns⟩ else none
    | _, _ => none
  | _ => none

/-- The attributes that calls give an element, one after the other. -/
def given (f : Forest) (id : NodeId) : List Call → List Attr
  | [] => []
  | call :: calls => (f.given? id call).toList ++ (f.perform call).1.given id calls

/-- Attributes stay what they are, and where they are. -/
structure KeepsAttributes (f g : Forest) : Prop where
  attributes : ∀ i, g.attributes i = f.attributes i
  data : ∀ {a x}, f.attr? a = some x → g.attr? a = some x
  parent : ∀ {a x}, f.attr? a = some x → g.parent? a = f.parent? a

theorem KeepsAttributes.trans {h : Forest} (hfg : KeepsAttributes f g) (hgh : KeepsAttributes g h) :
    KeepsAttributes f h where
  attributes i := (hgh.attributes i).trans (hfg.attributes i)
  data hx := hgh.data (hfg.data hx)
  parent hx := (hgh.parent (hfg.data hx)).trans (hfg.parent hx)

theorem keepsAttributes_add {x : Content} (hx : IsNew x) : KeepsAttributes f (f.add x).1 where
  attributes i := by
    rw [attributes, content?_add, attributes]
    split
    · next hi =>
      rw [hi, content?_size]
      cases x with
      | element e => exact hx.2.1
      | _ => rfl
    · rfl
  data {a y} hy := by
    rw [attr?_congr ((content?_add_of_some (content?_of_attr? hy).2).trans
      (content?_of_attr? hy).2.symm), hy]
  parent _ := parent?_add f x _

theorem keepsAttributes_attach {p c : NodeId} (h : Appendable f p c) :
    KeepsAttributes f (f.attach p c) where
  attributes := attributes_attach f p c
  data {a y} hy := (attr?_attach f p c a).trans hy
  parent {a y} hy := by
    -- a child is no attribute
    have hne : a ≠ c := by
      rintro rfl
      obtain ⟨k, hk, hin⟩ := h.fits
      cases (class?_of_content? (content?_of_attr? hy).2).symm.trans hk
      rcases hin with ⟨-, hin, -⟩ | ⟨-, hin⟩ <;> cases hin
    rw [parent?_attach h.isSome, if_neg hne]

theorem keepsAttributes_declare {ns : Namespace} (h : f.declare id ns = .ok g) :
    KeepsAttributes f g := by
  obtain ⟨e, he, -, rfl⟩ := declare_eq_ok_iff.1 h
  exact {
    attributes := attributes_redeclared _ he
    data := fun hx => (attr?_setContent_element he).trans hx
    parent := fun _ => parent?_setContent f id _ _ }

theorem Grown.keepsAttributes (h : Grown f g) : KeepsAttributes f g := by
  induction h with
  | refl => exact ⟨fun _ => rfl, fun hx => hx, fun _ => rfl⟩
  | add _ hx ih => exact ih.trans (keepsAttributes_add hx)
  | attach _ ha ih => exact ih.trans (keepsAttributes_attach ha)
  | declare _ hd ih => exact ih.trans (keepsAttributes_declare hd)

/-! ## Histories of elements -/

/-- An element lists the latest of the attributes that it has been given. The others are still what
they were, but are not its own any more. -/
structure Recorded (f : Forest) (id : NodeId) (l : List Attr) : Prop where
  listed : f.attributes id = (latestInOrder l).map (·.id)
  data : ∀ y ∈ l, f.attr? y.id = some y
  owner : ∀ y ∈ l, f.parent? y.id = some id ∨ f.parent? y.id = none

theorem Recorded.keep (h : Recorded f id l) (hk : KeepsAttributes f g) : Recorded g id l where
  listed := (hk.attributes id).trans h.listed
  data y hy := hk.data (h.data y hy)
  owner y hy := by
    rw [hk.parent (h.data y hy)]
    exact h.owner y hy

theorem Recorded.eq_of_id (h : Recorded f id l) {y : Attr} (hx : x ∈ l) (hy : y ∈ l)
    (hid : x.id = y.id) : x = y := by
  have hdata := h.data x hx
  rw [hid, h.data y hy] at hdata
  exact (Option.some.inj hdata).symm

theorem Recorded.attribute?_eq (h : Recorded f id l) (name uri : String) :
    f.attribute? id name uri = (latest l (name, uri)).map (·.id) := by
  rw [attribute?, h.listed, List.find?_map, ← find?_latestInOrder]
  congr 1
  refine List.find?_congr fun y hy => ?_
  have hdata := h.data y (mem_of_mem_latestInOrder hy)
  rw [Function.comp_apply, isAttributeOf_eq, hdata, Option.any_some]
  rfl

theorem Recorded.attributeSet_other {i : NodeId} (hf : f.WellFormed) (h : Recorded f id l)
    (hs : AttributeSet f g i e x) (hi : id ≠ i) : Recorded g id l where
  listed := by rw [hs.attributes_eq, if_neg hi, h.listed]
  data y hy := hs.attr?_old (h.data y hy)
  owner y hy := by
    have hnew : y.id ≠ x.id := hs.ne_new (content?_of_attr? (h.data y hy)).2
    have hold : f.attribute? i x.name x.ns.uri ≠ some y.id := fun ho => by
      have hp := hf.parent_of_attribute (mem_of_attribute? ho).1
      rcases h.owner y hy with ho | ho
      · exact hi (Option.some.inj (ho.symm.trans hp))
      · cases ho.symm.trans hp
    rw [hs.parent, if_neg hnew, if_neg hold]
    exact h.owner y hy

/-- The attributes of an element after it has been given one more. -/
theorem Recorded.replaced_eq (h : Recorded f id l) (new : Attr) :
    replaced (f.attribute? id new.name new.ns.uri) new.id (f.attributes id) =
      (latestInOrder (l ++ [new])).map (·.id) := by
  rw [h.attribute?_eq, h.listed, latestInOrder_append]
  split
  · next hkey =>
    obtain ⟨o, ho⟩ := exists_latest hkey
    rw [show latest l (new.name, new.ns.uri) = some o from ho, Option.map_some, replaced,
      List.map_map, List.map_map]
    refine List.map_congr_left fun y hy => ?_
    -- the old attribute is the only one with its key
    have hsame : y.id = o.id ↔ y.key = new.key := by
      obtain ⟨hmem, hk⟩ := mem_of_latest ho
      rw [← hk]
      constructor
      · exact fun hid => congrArg Attr.key (h.eq_of_id (mem_of_mem_latestInOrder hy) hmem hid)
      · intro hyo
        rw [eq_of_mem_latestInOrder hy (mem_latestInOrder.2 (hk ▸ ho)) hyo]
    rw [Function.comp_apply, Function.comp_apply]
    by_cases hy : y.key = new.key
    · rw [if_pos hy, if_pos (hsame.2 hy)]
    · rw [if_neg hy, if_neg (mt hsame.1 hy)]
  · next hkey =>
    have hnone : latest l (new.name, new.ns.uri) = none := by
      refine Option.eq_none_iff_forall_ne_some.2 fun o ho => hkey ?_
      obtain ⟨hmem, hk⟩ := mem_of_latest ho
      exact List.mem_map.2 ⟨o, hmem, hk⟩
    rw [hnone, Option.map_none, replaced, List.map_append, List.map_singleton]

theorem Recorded.attributeSet (h : Recorded f id l) (hs : AttributeSet f g id e x) :
    Recorded g id (l ++ [x]) where
  listed := by rw [hs.attributes_eq, if_pos rfl, h.replaced_eq]
  data y hy := by
    rcases List.mem_append.1 hy with hy | hy
    · exact hs.attr?_old (h.data y hy)
    · rw [List.mem_singleton.1 hy, hs.attr?_new]
  owner y hy := by
    rw [hs.parent]
    rcases List.mem_append.1 hy with hy | hy
    · split
      · exact .inl rfl
      · split
        · exact .inr rfl
        · exact h.owner y hy
    · exact .inl (if_pos (congrArg Attr.id (List.mem_singleton.1 hy)))

/-- What one call does to the attributes of an element. -/
theorem Recorded.perform (hf : f.WellFormed) (h : Recorded f id l) (call : Call) :
    Recorded (f.perform call).1 id (l ++ (f.given? id call).toList) := by
  by_cases hset : ∃ i name value ns, call = .setAttribute i name value ns
  · obtain ⟨i, name, value, ns, rfl⟩ := hset
    rw [Forest.perform, given?]
    cases hr : f.setAttribute i name value ns with
    | error fault => exact (List.append_nil l).symm ▸ h
    | ok r =>
      obtain ⟨e, x, hx, hname, hvalue, hns, hs⟩ := setAttribute_eq_ok hr
      have hgiven : (⟨r.2, name.getD "", x.value, ns⟩ : Attr) = x := by
        rw [← hx, hname, ← hns]
        rfl
      rw [hvalue]
      dsimp only
      rw [hgiven]
      by_cases hi : i = id
      · subst hi
        rw [if_pos rfl]
        exact h.attributeSet hs
      · rw [if_neg hi, Option.toList_none, List.append_nil]
        exact h.attributeSet_other hf hs (Ne.symm hi)
  · simp only [not_exists] at hset
    have hnone : f.given? id call = none := by
      cases call with
      | setAttribute i name value ns => exact absurd rfl (hset i name value ns)
      | _ => rfl
    rw [hnone, Option.toList_none, List.append_nil]
    exact h.keep (grown_perform hset).keepsAttributes

/-- What calls do to the attributes of an element, one after the other. -/
theorem Recorded.performAll (hf : f.Built) (h : Recorded f id l) (calls : List Call) :
    Recorded (f.performAll calls) id (l ++ f.given id calls) := by
  induction calls generalizing f l with
  | nil => exact (List.append_nil l).symm ▸ h
  | cons call calls ih =>
    rw [given, ← List.append_assoc]
    exact ih (hf.perform call) (h.perform hf.wellFormed call)

theorem recorded_empty (id : NodeId) : Recorded .empty id [] where
  listed := rfl
  data := nofun
  owner := nofun

/-! ## The map -/

theorem attributeValue?_eq (f : Forest) (a : NodeId) :
    f.attributeValue? a = (f.attr? a).map (·.value) := by
  unfold attributeValue? attr?
  split <;> simp_all

/-- The value of the attribute of an element with a name and a namespace URI. -/
def valueOf? (f : Forest) (id : NodeId) (name uri : String) : Option String :=
  (f.attribute? id name uri).bind f.attributeValue?

/-- The keys of the attributes that an element lists. -/
def attributeKeys (f : Forest) (id : NodeId) : List (String × String) :=
  ((f.attributes id).filterMap f.attr?).map Attr.key

/-- The attributes of an element are a map from their keys, which are in the order in which they
came first, to what each was given last. -/
structure OrderedAttributes (f : Forest) (id : NodeId) (l : List Attr) : Prop where
  listed : ∀ a ∈ f.attributes id, (f.attr? a).isSome = true ∧ f.parent? a = some id
  order : f.attributeKeys id = (l.map Attr.key).eraseDups
  once : (f.attributeKeys id).Nodup
  found : ∀ name uri, f.attribute? id name uri = (latest l (name, uri)).map (·.id)
  value : ∀ name uri, f.valueOf? id name uri = (latest l (name, uri)).map (·.value)
  replaced : ∀ x ∈ l, latest l x.key ≠ some x →
    x.id ∉ f.attributes id ∧ f.attr? x.id = some x ∧ f.parent? x.id = none

theorem Recorded.filterMap_attr? (h : Recorded f id l) :
    (f.attributes id).filterMap f.attr? = latestInOrder l := by
  rw [h.listed, List.filterMap_map]
  refine (List.filterMap_congr fun y hy => ?_).trans List.filterMap_some
  exact h.data y (mem_of_mem_latestInOrder hy)

theorem Recorded.valueOf?_eq (h : Recorded f id l) (name uri : String) :
    f.valueOf? id name uri = (latest l (name, uri)).map (·.value) := by
  rw [valueOf?, h.attribute?_eq]
  cases hx : latest l (name, uri) with
  | none => rfl
  | some x =>
    rw [Option.map_some, Option.bind_some, attributeValue?_eq, h.data x (mem_of_latest hx).1]

theorem Recorded.not_listed (h : Recorded f id l) (hx : x ∈ l) (hlatest : latest l x.key ≠ some x) :
    x.id ∉ f.attributes id := by
  intro hm
  rw [h.listed, List.mem_map] at hm
  obtain ⟨y, hy, hid⟩ := hm
  cases h.eq_of_id (mem_of_mem_latestInOrder hy) hx hid
  exact hlatest (mem_latestInOrder.1 hy)

theorem Recorded.orderedAttributes (hf : f.WellFormed) (h : Recorded f id l) :
    OrderedAttributes f id l := by
  have hkeys : f.attributeKeys id = (l.map Attr.key).eraseDups := by
    rw [attributeKeys, h.filterMap_attr?, map_key_latestInOrder]
  refine ⟨fun a ha => ?_, hkeys, hkeys ▸ nodup_eraseDups _, h.attribute?_eq, h.valueOf?_eq,
    fun x hx hlatest => ?_⟩
  · obtain ⟨y, hy, -⟩ := hf.attribute_data ha
    exact ⟨hy ▸ rfl, hf.parent_of_attribute ha⟩
  · have hnot := h.not_listed hx hlatest
    refine ⟨hnot, h.data x hx, (h.owner x hx).resolve_left fun hp => hnot ?_⟩
    exact (hf.owner_eq_iff (class?_of_content? (content?_of_attr? (h.data x hx)).2)).1 hp

/-- What a call does not give an element does not change under any other key. -/
theorem Recorded.unaffected (hf : f.WellFormed) (h : Recorded f id l) {call : Call}
    {name uri : String} (hother : ∀ x, f.given? id call = some x → x.key ≠ (name, uri)) :
    (f.perform call).1.attribute? id name uri = f.attribute? id name uri ∧
      (f.perform call).1.valueOf? id name uri = f.valueOf? id name uri := by
  have hlatest : latest (l ++ (f.given? id call).toList) (name, uri) = latest l (name, uri) := by
    cases hx : f.given? id call with
    | none => rw [Option.toList_none, List.append_nil]
    | some x => rw [Option.toList_some, latest_append, if_neg (hother x hx)]
  have hnext := h.perform hf call
  rw [hnext.attribute?_eq, hnext.valueOf?_eq, hlatest, h.attribute?_eq, h.valueOf?_eq]
  exact ⟨rfl, rfl⟩

/-- Whatever is called, the attributes of an element are a map in the order in which its keys came.
Setting one affects no other key, and if it fails it changes nothing. The values are the texts of
those that were given, so a text is found as it was given. -/
theorem attributes_ordered (calls : List Call) (id : NodeId) :
    let f := Forest.empty.performAll calls
    f.OrderedAttributes id (Forest.empty.given id calls) ∧
      (∀ call name uri, (∀ x, f.given? id call = some x → x.key ≠ (name, uri)) →
        (f.perform call).1.attribute? id name uri = f.attribute? id name uri ∧
          (f.perform call).1.valueOf? id name uri = f.valueOf? id name uri) ∧
      (∀ name value ns fault, (f.perform (.setAttribute id name value ns)).2 = some fault →
        (f.perform (.setAttribute id name value ns)).1 = f) ∧
      (∀ s, f.textOf (.text s) = .ok s) ∧
      ∀ name value ns, (∃ r, f.setAttribute id name value ns = .ok r) ↔ f.isElement id = true ∧
        (∃ nm, name = some nm ∧ nm ≠ "" ∧ ':' ∉ nm.toList) ∧ (∃ text, f.textOf value = .ok text) ∧
          (ns.pfx = "" → ns = Namespace.none) ∧ (ns.pfx ≠ "" → ¬ f.Clashes id ns) := by
  intro f
  have hf : f.WellFormed := (Built.empty.performAll calls).wellFormed
  have h : f.Recorded id (Forest.empty.given id calls) :=
    (recorded_empty id).performAll .empty calls
  exact ⟨h.orderedAttributes hf, fun call name uri => h.unaffected hf,
    fun name value ns fault => perform_of_fault nofun, fun s => rfl,
    fun name value ns => hf.setAttribute_isOk_iff⟩

end Forest

end TreeQuery
