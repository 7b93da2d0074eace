import Mathlib.Data.List.Find
import TreeQuery.Proofs.View.ClarkName
import TreeQuery.Proofs.View.Shape

/-!
# Steps of building a view

The checks that are made while a view is built, and the namespaces and attributes of its elements,
leave the navigator as it is and refuse only types and values (`Checks`). What they answer is what
the tree says: names, values and the text of a run.
-/

namespace TreeQuery.Navigator

open Text

variable {α β : Type} {n n' : Navigator} {outer : List ViewLevel} {level : ViewLevel} {uri : String}

/-! ## Declarations one by one -/

/-- A level after one more binding, which is declared unless it is bound already. -/
def declare (outer : List ViewLevel) (uri : String) (level : ViewLevel) (b : String × String) :
    ViewLevel where
  declared := if lookupPrefix (level :: outer) b.1 == some b.2 then level.declared
    else level.declared ++ [b]
  own := if level.own.isNone && b.2 == uri then some b else level.own

theorem declareAll_cons (b : String × String) (bs : List (String × String)) :
    declareAll outer uri level (b :: bs) =
      (if !Uri.isReference b.2 then refuse else pure ()) >>= fun _ =>
        (if b.1 != "" then checkName b.1 else pure ()) >>= fun _ =>
          checkText b.2 >>= fun _ => declareAll outer uri (declare outer uri level b) bs := by
  rw [declareAll]
  cases !Uri.isReference b.2 with
  | true => rfl
  | false => cases b.1 != "" <;> rfl

/-! ## Steps that change nothing -/

/-- A step that fails, if it does, on account of a type or a value. -/
def Refuses (x : M α) : Prop :=
  ∀ n fault n', x.run n = (.error fault, n') → fault.isAny [.type, .value] = true

theorem refuses_pure (a : α) : Refuses (pure a : M α) := by
  intro n fault n' h
  cases h

theorem refuses_throw {fault : Failure} (hf : fault.isAny [.type, .value] = true) :
    Refuses (throw fault : M α) := by
  intro n fault' n' h
  cases h
  exact hf

theorem Refuses.bind {x : M α} {g : α → M β} (hx : Refuses x) (hg : ∀ a, Refuses (g a)) :
    Refuses (x >>= g) := by
  intro n fault n' h
  rcases run_bind_eq_error h with h | ⟨a, m, -, h⟩
  · exact hx n fault n' h
  · exact hg a m fault n' h

theorem Refuses.ite {c : Prop} [Decidable c] {x y : M α} (hx : Refuses x) (hy : Refuses y) :
    Refuses (if c then x else y) := by
  split
  · exact hx
  · exact hy

/-- A step that leaves the navigator as it is. Whether it succeeds, and with what, does not depend on
the navigator. -/
inductive Checks (x : M α) : Prop where
  | pass (a : α) (eq : x = pure a)
  | refuse (fault : Failure) (eq : x = throw fault) (kind : fault.isAny [.type, .value] = true)

theorem checks_pure (a : α) : Checks (pure a : M α) := .pass a rfl

theorem checks_throw {fault : Failure} (hf : fault.isAny [.type, .value] = true) :
    Checks (throw fault : M α) := .refuse fault rfl hf

theorem throw_bind (fault : Failure) (g : α → M β) : (throw fault : M α) >>= g = throw fault := rfl

theorem Checks.bind {x : M α} {g : α → M β} (hx : Checks x) (hg : ∀ a, Checks (g a)) :
    Checks (x >>= g) := by
  cases hx with
  | pass a h =>
    rw [h, pure_bind]
    exact hg a
  | refuse fault h hf =>
    rw [h, throw_bind]
    exact checks_throw hf

theorem Checks.refuses {x : M α} (hx : Checks x) : Refuses x := by
  cases hx with
  | pass a h => exact h ▸ refuses_pure a
  | refuse fault h hf => exact h ▸ refuses_throw hf

theorem Checks.keeps {x : M α} (hx : Checks x) (n : Navigator) : (x.run n).2 = n := by
  cases hx with
  | pass a h => rw [h]; rfl
  | refuse fault h hf => rw [h]; rfl

theorem Checks.ite {c : Prop} [Decidable c] {x y : M α} (hx : Checks x) (hy : Checks y) :
    Checks (if c then x else y) := by
  split
  · exact hx
  · exact hy

theorem Checks.eq {x : M α} (hx : Checks x) {answer : Except Failure α}
    (h : x.run n = (answer, n')) : n' = n := by
  have := hx.keeps n
  rw [h] at this
  exact this

theorem checks_refuse : Checks (refuse : M α) := checks_throw rfl

theorem checks_checkText (s : String) : Checks (checkText s) := (checks_pure _).ite checks_refuse

theorem checks_checkName (s : String) : Checks (checkName s) := (checks_pure _).ite checks_refuse

theorem checks_asText (v : Value) : Checks (asText v) := by
  cases v with
  | text s => exact (checks_checkText s).bind fun _ => checks_pure _
  | none => exact checks_pure _
  | _ => exact checks_throw rfl

theorem checks_readName (s : String) : Checks (readName s) := by
  refine (checks_checkText s).bind fun _ => ?_
  cases ExpandedName.ofClark? s with
  | none => exact checks_refuse
  | some x => exact (checks_checkName _).bind fun _ => checks_pure _

theorem checks_declareAll (outer : List ViewLevel) (uri : String) (level : ViewLevel)
    (bs : List (String × String)) : Checks (declareAll outer uri level bs) := by
  induction bs generalizing level with
  | nil => exact checks_pure _
  | cons b bs ih =>
    rw [declareAll_cons]
    exact (checks_refuse.ite (checks_pure _)).bind fun _ =>
      ((checks_checkName _).ite (checks_pure _)).bind fun _ =>
        (checks_checkText _).bind fun _ => ih _

theorem checks_elementLevel (outer : List ViewLevel) (name : ExpandedName)
    (introduced : List Namespace) : Checks (elementLevel outer name introduced) := by
  refine (checks_declareAll _ _ _ _).bind fun level => ?_
  have hlast : Checks (pure { (settle outer level false name.uri).1 with
      own := some ((settle outer level false name.uri).2, name.uri) } : M ViewLevel) :=
    checks_pure _
  exact (checks_pure level).ite ((checks_refuse.bind fun _ => hlast).ite hlast)

theorem checks_buildAttributes (outer : List ViewLevel) (level : ViewLevel) (as : List Attr) :
    Checks (buildAttributes outer level as) := by
  induction as generalizing level with
  | nil => exact checks_pure _
  | cons a as ih =>
    exact (checks_readName _).bind fun name => (checks_checkText _).bind fun _ =>
      (ih _).bind fun _ => checks_pure _

/-! ## What they answer -/

theorem isName_of_checkName {s : String} {u : Unit} (h : (checkName s).run n = (.ok u, n')) :
    isName s.toList = true := by
  unfold checkName at h
  split at h
  · next hs => exact hs
  · cases h

theorem readName_eq_ok {uri name : String} {x : ExpandedName} (hn : isName name.toList = true)
    (h : (readName (Namespace.clark uri name)).run n = (.ok x, n')) : x = ⟨uri, name⟩ := by
  obtain ⟨-, m, -, h⟩ := run_bind_eq_ok h
  split at h
  · next y hy =>
    obtain ⟨u, m', hc, h⟩ := run_bind_eq_ok h
    cases h
    exact (ExpandedName.ofClark?_eq hn hy (isName_of_checkName hc)).1
  · cases h

theorem asText_eq_ok {v : Value} {s : String} (h : (asText v).run n = (.ok s, n')) :
    s = v.characters := by
  cases v with
  | text t =>
    obtain ⟨-, m, -, h⟩ := run_bind_eq_ok h
    cases h
    rfl
  | none =>
    cases h
    rfl
  | _ => cases h

/-- All bindings to a URI are declared but that of `xml`. -/
theorem mem_declarations {introduced : List Namespace} {b : String × String} :
    b ∈ declarations introduced ↔
      ∃ n ∈ introduced, n ≠ Namespace.xml ∧ n.uri ≠ "" ∧ b = (n.pfx, n.uri) := by
  have hmem : b ∈ declarations introduced ↔
      b ∈ (introduced.filter fun n => n != Namespace.xml && n.uri != "").map
        fun n => (n.pfx, n.uri) := by
    rw [declarations, List.mem_append, List.mem_filter, List.mem_filter, ← and_or_left]
    exact and_iff_left (by by_cases h : b.1 = "" <;> simp [h])
  rw [hmem, List.mem_map]
  simp only [List.mem_filter, Bool.and_eq_true, bne_iff_ne]
  exact exists_congr fun n => by
    rw [and_assoc, and_assoc, eq_comm]

/-- An attribute that is not set again stands before the others as it is. -/
theorem withLater_eq_cons {a : ViewAttribute} {later : List ViewAttribute}
    (h : ∀ b ∈ later, b.name ≠ a.name) : withLater a later = a :: later := by
  have hfind : later.find? (·.name == a.name) = none :=
    List.find?_eq_none.2 fun b hb => by simp [h b hb]
  have hfilter : later.filter (·.name != a.name) = later :=
    List.filter_eq_self.2 fun b hb => by simp [h b hb]
  simp [withLater, hfind, hfilter]

/-- The attributes of a view have the names and values of those of the tree. -/
theorem buildAttributes_eq_ok {outer : List ViewLevel} {level level' : ViewLevel} {as : List Attr}
    {vas : List ViewAttribute} (hn : ∀ a ∈ as, isName a.name.toList = true)
    (hd : (as.map fun a => (⟨a.ns.uri, a.name⟩ : ExpandedName)).Nodup)
    (h : (buildAttributes outer level as).run n = (.ok (level', vas), n')) :
    vas.map (fun a => (a.name, a.value)) =
      as.map fun a => ((⟨a.ns.uri, a.name⟩ : ExpandedName), a.value) := by
  induction as generalizing level vas n n' with
  | nil =>
    cases h
    rfl
  | cons a as ih =>
    obtain ⟨name, m, hname, h⟩ := run_bind_eq_ok h
    obtain ⟨-, m', -, h⟩ := run_bind_eq_ok h
    obtain ⟨⟨level₁, rest⟩, m₁, hrest, h⟩ := run_bind_eq_ok h
    cases h
    obtain rfl := readName_eq_ok (hn a List.mem_cons_self) hname
    rw [List.map_cons, List.nodup_cons] at hd
    have hpairs := ih (fun b hb => hn b (List.mem_cons_of_mem _ hb)) hd.2 hrest
    have hlater (b) (hb : b ∈ rest) : b.name ≠ ⟨a.ns.uri, a.name⟩ := by
      intro he
      have hm := List.mem_map_of_mem (f := fun a : ViewAttribute => (a.name, a.value)) hb
      rw [hpairs] at hm
      obtain ⟨c, hc, heq⟩ := List.mem_map.1 hm
      exact hd.1 (List.mem_map.2 ⟨c, hc, (congrArg Prod.fst heq).trans he⟩)
    rw [withLater_eq_cons hlater, List.map_cons, List.map_cons, hpairs]

/-! ## Runs of text -/

/-- The shapes of a run of text nodes. -/
def runShapes (run : List (NodeId × Value)) : List (Shape NodeId) :=
  run.map fun p => .text p.1 p.2.characters

theorem isText_runShapes (run : List (NodeId × Value)) : ∀ s ∈ runShapes run, s.isText = true := by
  intro s hs
  obtain ⟨p, -, rfl⟩ := List.mem_map.1 hs
  rfl

theorem join_eq_ok {index : Nat} {typeName : Value → String} {run : List (NodeId × Value)}
    {s : String} (h : Tree.join index typeName (run.map (·.2)) = .ok s) :
    (∀ p ∈ run, ∃ t, p.2 = .text t) ∧ s = Shape.textOf (runShapes run) := by
  induction run generalizing index s with
  | nil =>
    cases h
    exact ⟨nofun, rfl⟩
  | cons p run ih =>
    obtain ⟨id, v⟩ := p
    cases v with
    | text t =>
      rw [List.map_cons, Tree.join] at h
      obtain ⟨rest, hr, h⟩ := bind_eq_ok h
      cases h
      obtain ⟨htext, rfl⟩ := ih hr
      exact ⟨List.forall_mem_cons.2 ⟨⟨t, rfl⟩, htext⟩, rfl⟩
    | _ => cases h

theorem find?_runShapes {run : List (NodeId × Value)} (h : ∀ p ∈ run, ∃ t, p.2 = .text t) :
    (runShapes run).find? Shape.hasText =
      (run.find? (·.2.truthy)).map fun p => .text p.1 p.2.characters := by
  rw [runShapes, List.find?_map]
  have hcongr : run.find? (Shape.hasText ∘ fun p => .text p.1 p.2.characters) =
      run.find? (·.2.truthy) := List.find?_congr fun p hp => by
    obtain ⟨t, ht⟩ := h p hp
    simp only [Function.comp, ht]
    rfl
  rw [hcongr]

/-- A run of texts is made the text that it is in the shape of its tree, or none. -/
theorem addText_eq_ok {typeName : Value → String} {slot : Slot} {run : List (NodeId × Value)}
    {text : Option String} (h : (addText typeName slot run).run n = (.ok text, n')) :
    (∀ p ∈ run, ∃ t, p.2 = .text t) ∧
      (text = none ∧ n' = n ∧ Shape.ofRun (runShapes run) = [] ∨
        ∃ id s, text = some s ∧ s ≠ "" ∧ n' = { n with texts := assign slot id n.texts } ∧
          Shape.ofRun (runShapes run) = [.text id s]) := by
  unfold addText at h
  cases hj : Tree.join 0 typeName (run.map (·.2)) with
  | error fault =>
    rw [hj] at h
    cases h
  | ok s =>
    obtain ⟨htext, hs⟩ := join_eq_ok hj
    have hfind := find?_runShapes htext
    have hempty := Shape.textOf_eq_empty_iff (isText_runShapes run)
    rw [← hs] at hempty
    rw [hj] at h
    refine ⟨htext, ?_⟩
    by_cases he : s = ""
    · dsimp only at h
      rw [pure_bind, if_pos he] at h
      cases h
      exact .inl ⟨rfl, rfl, Shape.ofRun_eq_nil (isText_runShapes run) (hempty.1 he)⟩
    · dsimp only at h
      rw [pure_bind, if_neg he] at h
      obtain ⟨_, m, hc, hlast⟩ := run_bind_eq_ok h
      obtain rfl := (checks_checkText s).eq hc
      cases hf : run.find? (·.2.truthy) with
      | none =>
        rw [hf] at hfind
        exact absurd (hempty.2 hfind) he
      | some p =>
        rw [hf] at hlast hfind
        cases hlast
        refine .inr ⟨p.1, s, rfl, he, rfl, ?_⟩
        rw [Shape.ofRun, hfind, hs]
        rfl

end TreeQuery.Navigator
