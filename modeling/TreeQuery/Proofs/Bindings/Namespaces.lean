import Mathlib.Data.List.Sort
import Mathlib.Data.String.Basic
import TreeQuery.Query.Bindings

/-!
# The namespaces of a query

Namespaces are bound one after the other, and each is put in its place among those already bound.
What comes of it depends only on which namespaces are given: they are bound unless two of them give
one prefix two URIs, and they are kept by prefix (`collect_given`).
-/

namespace TreeQuery.Bindings

variable {f : Forest} {bound bound' ns ns' seen : List Namespace} {n m : Namespace} {p : String}
  {v : Value} {vs vs' : List Value}

/-! ## Bindings by prefix -/

/-- Bindings of different prefixes, the least prefix first. -/
def Sorted (bound : List Namespace) : Prop := bound.Pairwise fun a b => a.pfx < b.pfx

/-- Sorted bindings are known by what they bind. -/
theorem Sorted.ext (h : Sorted bound) (h' : Sorted bound') (hm : ∀ n, n ∈ bound ↔ n ∈ bound') :
    bound = bound' := by
  have : Std.Irrefl fun a b : Namespace => a.pfx < b.pfx := ⟨fun a => lt_irrefl a.pfx⟩
  have : Std.Antisymm fun a b : Namespace => a.pfx < b.pfx :=
    ⟨fun a b hab hba => absurd hba hab.not_gt⟩
  exact List.Pairwise.eq_of_mem_iff h h' hm

theorem Sorted.eq_of_pfx (h : Sorted bound) (hn : n ∈ bound) (hm : m ∈ bound)
    (hp : n.pfx = m.pfx) : n = m := by
  have hnodup : (bound.map Namespace.pfx).Nodup :=
    List.pairwise_map.2 (h.imp fun hlt => hlt.ne)
  exact List.inj_on_of_nodup_map hnodup hn hm hp

theorem find?_eq_none_iff : find? bound p = none ↔ ∀ n ∈ bound, n.pfx ≠ p := by
  simp [find?, List.find?_eq_none]

theorem mem_of_find? (h : find? bound p = some n) : n ∈ bound ∧ n.pfx = p :=
  ⟨List.mem_of_find?_eq_some h, by simpa using List.find?_some h⟩

theorem Sorted.find?_eq_some_iff (h : Sorted bound) :
    find? bound p = some n ↔ n ∈ bound ∧ n.pfx = p := by
  refine ⟨mem_of_find?, fun ⟨hn, hp⟩ => ?_⟩
  cases hf : find? bound p with
  | none => exact absurd hp (find?_eq_none_iff.1 hf n hn)
  | some m =>
    obtain ⟨hm, hmp⟩ := mem_of_find? hf
    rw [h.eq_of_pfx hm hn (hmp.trans hp.symm)]

/-! ## One more binding -/

theorem mem_insert : m ∈ insert n bound ↔ m = n ∨ m ∈ bound := by
  induction bound with
  | nil => simp [insert]
  | cons b bound ih =>
    rw [insert]
    split
    · rw [List.mem_cons]
    · rw [List.mem_cons, ih, List.mem_cons, or_left_comm]

theorem Sorted.insert (h : Sorted bound) (hnew : ∀ m ∈ bound, m.pfx ≠ n.pfx) :
    Sorted (insert n bound) := by
  induction bound with
  | nil => exact List.pairwise_singleton _ n
  | cons b bound ih =>
    obtain ⟨hb, hbound⟩ := List.pairwise_cons.1 h
    obtain ⟨hne, hnew⟩ := List.forall_mem_cons.1 hnew
    rw [Bindings.insert]
    split
    · next hlt =>
      refine List.pairwise_cons.2 ⟨List.forall_mem_cons.2 ⟨hlt, fun m hm => ?_⟩, h⟩
      exact hlt.trans (hb m hm)
    · next hge =>
      refine List.pairwise_cons.2 ⟨fun m hm => ?_, ih hbound hnew⟩
      rcases mem_insert.1 hm with rfl | hm
      · exact lt_of_le_of_ne (not_lt.1 hge) hne
      · exact hb m hm

/-- What binding one more namespace comes to. -/
inductive Addition (bound : List Namespace) (n : Namespace) :
    Except Failure (List Namespace) → Prop where
  | bound {bound' : List Namespace} (sorted : Sorted bound')
      (members : ∀ m, m ∈ bound' ↔ m = n ∨ m ∈ bound) : Addition bound n (.ok bound')
  | conflict {m : Namespace} (taken : m ∈ bound) (pfx : m.pfx = n.pfx) (uri : m.uri ≠ n.uri) :
      Addition bound n (.error (.prefixConflict n.pfx m.uri n.uri))

theorem Sorted.addition (h : Sorted bound) (n : Namespace) : Addition bound n (add bound n) := by
  unfold add
  split
  · next hnone => exact .bound (h.insert (find?_eq_none_iff.1 hnone)) fun m => mem_insert
  · next m hsome =>
    obtain ⟨hm, hp⟩ := mem_of_find? hsome
    split
    · next he =>
      subst he
      exact .bound h fun x => (or_iff_right_of_imp fun hx => hx ▸ hm).symm
    · next hne => exact .conflict hm hp fun hu => hne (Namespace.ext' hp hu)

theorem Sorted.add (h : Sorted bound) (ha : add bound n = .ok bound') : Sorted bound' := by
  have hadd := h.addition n
  rw [ha] at hadd
  cases hadd with
  | bound sorted => exact sorted

/-! ## Binding one after the other -/

/-- Two bindings of one prefix to two URIs. -/
def Conflict (ns : List Namespace) : Prop :=
  ∃ a ∈ ns, ∃ b ∈ ns, a.pfx = b.pfx ∧ a.uri ≠ b.uri

/-- What binding the namespaces `ns` comes to. -/
inductive Collection (ns : List Namespace) : Except Failure (List Namespace) → Prop where
  | bound {bound : List Namespace} (sorted : Sorted bound) (members : ∀ n, n ∈ bound ↔ n ∈ ns) :
      Collection ns (.ok bound)
  | conflict {a b : Namespace} (first : a ∈ ns) (second : b ∈ ns) (pfx : a.pfx = b.pfx)
      (uri : a.uri ≠ b.uri) : Collection ns (.error (.prefixConflict b.pfx a.uri b.uri))

/-- Where namespaces are bound there is no conflict. -/
theorem Collection.not_conflict (h : Collection ns (.ok bound)) : ¬Conflict ns := by
  rintro ⟨a, ha, b, hb, hp, hu⟩
  cases h with
  | bound sorted members =>
    rw [sorted.eq_of_pfx ((members a).2 ha) ((members b).2 hb) hp] at hu
    exact hu rfl

theorem collection_collectFrom (h : Sorted bound) (hm : ∀ n, n ∈ bound ↔ n ∈ seen)
    (hns : List.Forall₂ (fun v n => namespaceOf f v = .ok n) vs ns) :
    Collection (seen ++ ns) (collectFrom f bound vs) := by
  induction hns generalizing bound seen with
  | nil =>
    rw [List.append_nil]
    exact .bound h hm
  | @cons v n vs ns hv _ ih =>
    rw [collectFrom, hv]
    show Collection (seen ++ n :: ns) (add bound n >>= fun b => collectFrom f b vs)
    have hadd := h.addition n
    generalize add bound n = answer at hadd
    cases hadd with
    | @bound bound' sorted members =>
      have hseen (m) : m ∈ bound' ↔ m ∈ seen ++ [n] := by
        rw [members, hm, List.mem_append, List.mem_singleton, or_comm]
      rw [List.append_cons]
      exact ih sorted hseen
    | conflict taken pfx uri =>
      exact .conflict (List.mem_append_left _ ((hm _).1 taken))
        (List.mem_append_right _ List.mem_cons_self) pfx uri

theorem Sorted.collectFrom (h : Sorted bound) (hc : collectFrom f bound vs = .ok bound') :
    Sorted bound' := by
  induction vs generalizing bound with
  | nil =>
    cases hc
    exact h
  | cons v vs ih =>
    obtain ⟨n, -, hc⟩ := bind_eq_ok hc
    obtain ⟨b, hadd, hc⟩ := bind_eq_ok hc
    exact ih (h.add hadd) hc

/-! ## The default namespace -/

theorem withDefault_of_mem (h : n ∈ bound) (hp : n.pfx = "") : withDefault bound = bound := by
  refine if_pos (Option.isSome_iff_ne_none.2 fun hnone => ?_)
  exact find?_eq_none_iff.1 hnone n h hp

theorem withDefault_of_forall (h : ∀ n ∈ bound, n.pfx ≠ "") :
    withDefault bound = insert Namespace.none bound := by
  refine if_neg ?_
  rw [find?_eq_none_iff.2 h]
  exact Bool.false_ne_true

/-- The empty prefix is bound in any case, to no namespace unless it was bound. -/
theorem mem_withDefault : n ∈ withDefault bound ↔
    n ∈ bound ∨ n = Namespace.none ∧ ∀ m ∈ bound, m.pfx ≠ "" := by
  by_cases h : ∃ m ∈ bound, m.pfx = ""
  · obtain ⟨m, hm, hp⟩ := h
    rw [withDefault_of_mem hm hp]
    exact (or_iff_left fun hno => hno.2 m hm hp).symm
  · have h : ∀ m ∈ bound, m.pfx ≠ "" := fun m hm hp => h ⟨m, hm, hp⟩
    rw [withDefault_of_forall h, mem_insert, or_comm]
    exact or_congr_right (and_iff_left h).symm

theorem Sorted.withDefault (h : Sorted bound) : Sorted (withDefault bound) := by
  by_cases hd : ∃ m ∈ bound, m.pfx = ""
  · obtain ⟨m, hm, hp⟩ := hd
    rwa [withDefault_of_mem hm hp]
  · have hd : ∀ m ∈ bound, m.pfx ≠ "" := fun m hm hp => hd ⟨m, hm, hp⟩
    rw [withDefault_of_forall hd]
    exact h.insert hd

theorem exists_default (bound : List Namespace) : ∃ n ∈ withDefault bound, n.pfx = "" := by
  by_cases hd : ∃ m ∈ bound, m.pfx = ""
  · obtain ⟨m, hm, hp⟩ := hd
    exact ⟨m, mem_withDefault.2 (.inl hm), hp⟩
  · exact ⟨Namespace.none, mem_withDefault.2 (.inr ⟨rfl, fun m hm hp => hd ⟨m, hm, hp⟩⟩), rfl⟩

/-- The namespaces of a query are sorted, and one of them is that of the empty prefix. -/
theorem sorted_of_collect (h : collect f v = .ok bound) :
    Sorted bound ∧ ∃ n ∈ bound, n.pfx = "" := by
  obtain ⟨vs, -, h⟩ := bind_eq_ok h
  obtain ⟨b, hb, h⟩ := bind_eq_ok h
  cases h
  exact ⟨(Sorted.collectFrom .nil hb).withDefault, exists_default b⟩

/-! ## Given namespaces -/

/-- A prefix or a URI, for which nothing may stand if it is empty. -/
inductive Part : Value → String → Prop where
  | text (s : String) : Part (.text s) s
  | none : Part .none ""

/-- The namespace that a value gives: an object, or a pair of a prefix and a URI. -/
inductive Gives : Value → Namespace → Prop where
  | object (n : Namespace) : Gives (.ns n) n
  | tuple {p u : Value} {n : Namespace} (pfx : Part p n.pfx) (uri : Part u n.uri) :
      Gives (.tuple [p, u]) n
  | list {p u : Value} {n : Namespace} (pfx : Part p n.pfx) (uri : Part u n.uri) :
      Gives (.list [p, u]) n

theorem ofValues_of_part {p u : Value} (hp : Part p n.pfx) (hu : Part u n.uri) :
    Namespace.ofValues p u = .ok n := by
  have hmake := Namespace.make_eq_ok_iff.2 (⟨rfl, rfl⟩ : n.pfx = n.pfx ∧ n.uri = n.uri)
  generalize n.pfx = pfx at hp hmake
  generalize n.uri = uri at hu hmake
  cases hp <;> cases hu <;> simp [Namespace.ofValues, hmake, Except.mapError]

theorem Gives.namespaceOf (h : Gives v n) : namespaceOf f v = .ok n := by
  cases h with
  | object => exact ofValues_of_part (.text _) (.text _)
  | tuple hp hu => exact ofValues_of_part hp hu
  | list hp hu => exact ofValues_of_part hp hu

theorem collect_list (f : Forest) (vs : List Value) :
    collect f (.list vs) = (collectFrom f [] vs).map withDefault := by
  show collectFrom f [] vs >>= _ = _
  cases collectFrom f [] vs <;> rfl

theorem collection_of_gives (h : List.Forall₂ Gives vs ns) :
    Collection ns (collectFrom f [] vs) := by
  have hc : Collection ([] ++ ns) (collectFrom f [] vs) :=
    collection_collectFrom .nil (fun _ => Iff.rfl) (h.imp fun _ _ hv => hv.namespaceOf)
  exact hc

/-- The same namespaces are in conflict in any order. -/
theorem conflict_congr (h : ∀ n, n ∈ ns' ↔ n ∈ ns) : Conflict ns' ↔ Conflict ns := by
  simp only [Conflict, h]

/-- Given namespaces are refused on account of a conflict, or they are kept by prefix, and with them
the default namespace. -/
theorem collect_cases (f : Forest) (h : List.Forall₂ Gives vs ns) :
    (Conflict ns ∧ ∃ fault, collect f (.list vs) = .error fault ∧ fault.kind = .value) ∨
      ¬Conflict ns ∧ ∃ bound, collect f (.list vs) = .ok bound ∧ Sorted bound ∧
        ∀ n, n ∈ bound ↔ n ∈ ns ∨ n = Namespace.none ∧ ∀ m ∈ ns, m.pfx ≠ "" := by
  have hc := collection_of_gives (f := f) h
  rw [collect_list]
  generalize collectFrom f [] vs = answer at hc ⊢
  cases hc with
  | conflict first second pfx uri =>
    exact .inl ⟨⟨_, first, _, second, pfx, uri⟩, _, rfl, rfl⟩
  | @bound bound sorted members =>
    have hno := (Collection.bound sorted members).not_conflict
    exact .inr ⟨hno, withDefault bound, rfl, sorted.withDefault, fun n => by
      simp only [mem_withDefault, members]⟩

/-- Given namespaces are refused if two of them are in conflict. -/
theorem collect_refused_iff (h : List.Forall₂ Gives vs ns) :
    (∃ fault, collect f (.list vs) = .error fault ∧ fault.kind = .value) ↔ Conflict ns := by
  rcases collect_cases f h with ⟨hconflict, hrefused⟩ | ⟨hno, bound, hbound, -⟩
  · exact iff_of_true hrefused hconflict
  · refine iff_of_false ?_ hno
    rintro ⟨fault, hfault, -⟩
    cases hbound.symm.trans hfault

/-- Given namespaces that are bound are known by what is bound. -/
theorem collect_eq_ok_iff (h : List.Forall₂ Gives vs ns) : collect f (.list vs) = .ok bound ↔
    ¬Conflict ns ∧ Sorted bound ∧
      ∀ n, n ∈ bound ↔ n ∈ ns ∨ n = Namespace.none ∧ ∀ m ∈ ns, m.pfx ≠ "" := by
  rcases collect_cases f h with ⟨hconflict, fault, hfault, -⟩ | ⟨hno, bound₀, hbound, hsorted, hmem⟩
  · rw [hfault]
    exact iff_of_false nofun fun hno => hno.1 hconflict
  · rw [hbound]
    constructor
    · rintro ⟨⟩
      exact ⟨hno, hsorted, hmem⟩
    · rintro ⟨-, hsorted', hmem'⟩
      exact congrArg Except.ok (hsorted.ext hsorted' fun n => (hmem n).trans (hmem' n).symm)

/-- Namespaces are refused exactly if two of them bind one prefix to two URIs. If not, each prefix
is bound to its URI, the empty one to no namespace if it is not given, and nothing else is bound.
Neither the order in which they are given nor what is given twice makes a difference to this. -/
theorem collect_given (f : Forest) (h : List.Forall₂ Gives vs ns) :
    ((∃ fault, collect f (.list vs) = .error fault ∧ fault.kind = .value) ↔
        ∃ a ∈ ns, ∃ b ∈ ns, a.pfx = b.pfx ∧ a.uri ≠ b.uri) ∧
      ((∀ a ∈ ns, ∀ b ∈ ns, a.pfx = b.pfx → a.uri = b.uri) →
        ∃ bound, collect f (.list vs) = .ok bound ∧
          (bound.Pairwise fun a b => a.pfx < b.pfx) ∧
          ∀ n, n ∈ bound ↔ n ∈ ns ∨ n = Namespace.none ∧ ∀ m ∈ ns, m.pfx ≠ "") ∧
      ∀ vs' ns', List.Forall₂ Gives vs' ns' → (∀ n, n ∈ ns' ↔ n ∈ ns) →
        ((∃ fault, collect f (.list vs') = .error fault ∧ fault.kind = .value) ↔
          ∃ fault, collect f (.list vs) = .error fault ∧ fault.kind = .value) ∧
        ∀ bound, collect f (.list vs') = .ok bound ↔ collect f (.list vs) = .ok bound := by
  refine ⟨collect_refused_iff h, fun hno => ?_, fun vs' ns' h' hmem => ⟨?_, fun bound => ?_⟩⟩
  · rcases collect_cases f h with ⟨⟨a, ha, b, hb, hp, hu⟩, -⟩ | ⟨-, hbound⟩
    · exact absurd (hno a ha b hb hp) hu
    · exact hbound
  · rw [collect_refused_iff h, collect_refused_iff h', conflict_congr hmem]
  · rw [collect_eq_ok_iff h, collect_eq_ok_iff h', conflict_congr hmem]
    simp only [hmem]

/-- Given as objects and as pairs, some of them twice, and once more in another order. -/
theorem collect_given_mixed :
    let p : Namespace := ⟨"p", "urn:p", by decide, by decide, by decide⟩
    let q : Namespace := ⟨"q", "urn:q", by decide, by decide, by decide⟩
    let vs : List Value := [.tuple [.text "q", .text "urn:q"], .ns p, .tuple [.none, .none],
      .list [.text "p", .text "urn:p"]]
    let vs' : List Value := [.ns p, .tuple [.text "", .none], .ns q, .ns q]
    List.Forall₂ Gives vs [q, p, Namespace.none, p] ∧
      List.Forall₂ Gives vs' [p, Namespace.none, q, q] ∧
      collect .empty (.list vs) = .ok [Namespace.none, p, q] ∧
      collect .empty (.list vs') = .ok [Namespace.none, p, q] := by
  intro p q vs vs'
  have hnone : Gives (.tuple [.none, .none]) Namespace.none := .tuple .none .none
  have h : List.Forall₂ Gives vs [q, p, Namespace.none, p] :=
    .cons (.tuple (.text _) (.text _)) (.cons (.object p) (.cons hnone
      (.cons (.list (.text _) (.text _)) .nil)))
  have h' : List.Forall₂ Gives vs' [p, Namespace.none, q, q] :=
    .cons (.object p) (.cons (.tuple (.text _) .none) (.cons (.object q) (.cons (.object q) .nil)))
  obtain ⟨-, hbound, hsame⟩ := collect_given .empty h
  obtain ⟨bound, hok, hsorted, hmem⟩ := hbound (by decide)
  have hmem' (n : Namespace) : n ∈ bound ↔ n ∈ [Namespace.none, p, q] := by
    simp only [hmem, List.mem_cons, List.not_mem_nil, or_false, forall_eq_or_imp]
    grind
  obtain rfl := Sorted.ext hsorted (by unfold Sorted; decide +kernel) hmem'
  have hsame' (n : Namespace) : n ∈ [p, Namespace.none, q, q] ↔ n ∈ [q, p, Namespace.none, p] := by
    grind
  exact ⟨h, h', hok, ((hsame vs' _ h' hsame').2 _).2 hok⟩

end TreeQuery.Bindings
