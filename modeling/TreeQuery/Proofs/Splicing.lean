import TreeQuery.XPath.Splice

/-!
# Splicing in the order of the text

Replacements are sorted before they are made, and those of one span keep their order. So a list of
replacements is made like any sorted one that has the same replacements of each span in the same
order (`mergeSort_eq_of_filter`), and a sorted list is made part by part of the text
(`spliceFrom_change`). What is left of a list when some of it is taken away stays sorted as it was
(`mergeSort_sublist`), which compares the lengths of texts (`length_spliceFrom_le`).
-/

namespace TreeQuery.XPath

namespace Replacement

/-- Whether a replacement is of one span. -/
def spans (start stop : Nat) (r : Replacement) : Bool := r.start == start && r.stop == stop

/-- Two replacements that do not overlap. An insertion may stand at either end of another
replacement, but not inside. -/
def Apart (a b : Replacement) : Prop := a.stop ≤ b.start ∨ b.stop ≤ a.start

theorem Apart.symm {a b : Replacement} (h : Apart a b) : Apart b a :=
  Or.symm h

theorem spans_self (r : Replacement) : r.spans r.start r.stop = true := by
  simp [spans]

theorem spans_iff {start stop : Nat} {r : Replacement} :
    r.spans start stop = true ↔ r.start = start ∧ r.stop = stop := by
  simp [spans]

theorem le_iff {a b : Replacement} :
    a.le b = true ↔ a.start < b.start ∨ a.start = b.start ∧ a.stop ≤ b.stop := by
  simp [le]

theorem le_of_spans {start stop : Nat} {a b : Replacement} (h : a.spans start stop = true)
    (h' : b.spans start stop = true) : a.le b = true := by
  rw [spans_iff] at h h'
  rw [le_iff]
  omega

theorem spans_of_le {a b : Replacement} (h : a.le b = true) (h' : b.le a = true) :
    b.spans a.start a.stop = true := by
  rw [le_iff] at h h'
  rw [spans_iff]
  omega

/-! ## Stable sorting -/

/-- Sorting keeps the replacements of one span and their order. -/
theorem filter_mergeSort (l : List Replacement) (start stop : Nat) :
    (l.mergeSort le).filter (spans start stop) = l.filter (spans start stop) := by
  have hs : (l.filter (spans start stop)).Pairwise (fun a b => a.le b = true) := by
    rw [List.pairwise_filter]
    exact List.pairwise_of_forall fun a b => le_of_spans
  have hl : (l.filter (spans start stop)).Sublist (l.mergeSort le) :=
    List.sublist_mergeSort le_trans le_total hs List.filter_sublist
  have hf := hl.filter (spans start stop)
  simp only [List.filter_filter, Bool.and_self] at hf
  refine (hf.eq_of_length ?_).symm
  exact ((List.mergeSort_perm l le).filter _).length_eq.symm

theorem mem_of_filter {l m : List Replacement} {a : Replacement} (ha : a ∈ l)
    (h : ∀ start stop, l.filter (spans start stop) = m.filter (spans start stop)) : a ∈ m := by
  have hf := List.mem_filter.2 ⟨ha, spans_self a⟩
  rw [h] at hf
  exact (List.mem_filter.1 hf).1

/-- Sorted lists with the same replacements of each span are equal. -/
theorem eq_of_filter {l m : List Replacement} (hl : l.Pairwise (fun a b => a.le b = true))
    (hm : m.Pairwise (fun a b => a.le b = true))
    (h : ∀ start stop, l.filter (spans start stop) = m.filter (spans start stop)) : l = m := by
  induction l generalizing m with
  | nil =>
    cases m with
    | nil => rfl
    | cons b m => cases mem_of_filter List.mem_cons_self fun s e => (h s e).symm
  | cons a l ih =>
    cases m with
    | nil => cases mem_of_filter List.mem_cons_self h
    | cons b m =>
      rw [List.pairwise_cons] at hl hm
      have hab : a.le b = true := by
        rcases List.mem_cons.1 (mem_of_filter List.mem_cons_self fun s e => (h s e).symm) with
          rfl | hb
        · exact le_of_spans (spans_self b) (spans_self b)
        · exact hl.1 b hb
      have hba : b.le a = true := by
        rcases List.mem_cons.1 (mem_of_filter List.mem_cons_self h) with rfl | ha
        · exact le_of_spans (spans_self a) (spans_self a)
        · exact hm.1 a ha
      obtain rfl : a = b := by
        have := h a.start a.stop
        rw [List.filter_cons_of_pos (spans_self a),
          List.filter_cons_of_pos (spans_of_le hab hba)] at this
        exact (List.cons.inj this).1
      refine congrArg _ (ih hl.2 hm.2 fun start stop => ?_)
      have := h start stop
      rw [List.filter_cons, List.filter_cons] at this
      split at this
      · exact (List.cons.inj this).2
      · exact this

theorem mergeSort_eq_of_filter {l m : List Replacement}
    (hm : m.Pairwise (fun a b => a.le b = true))
    (h : ∀ start stop, l.filter (spans start stop) = m.filter (spans start stop)) :
    l.mergeSort le = m := by
  refine eq_of_filter (List.pairwise_mergeSort le_trans le_total l) hm fun start stop => ?_
  rw [filter_mergeSort, h]

theorem mergeSort_sublist {l l' : List Replacement} (h : l.Sublist l') :
    (l.mergeSort le).Sublist (l'.mergeSort le) := by
  induction h with
  | slnil => exact List.Sublist.refl _
  | @cons l l' a _ ih =>
    obtain ⟨us, vs, hcons, hl, -⟩ := List.mergeSort_cons le_trans le_total a l'
    rw [hl] at ih
    rw [hcons]
    exact ih.middle a
  | @cons_cons l l' a _ ih =>
    obtain ⟨us, vs, hcons, hl, hus⟩ := List.mergeSort_cons le_trans le_total a l
    obtain ⟨us', vs', hcons', hl', hus'⟩ := List.mergeSort_cons le_trans le_total a l'
    have split {us vs m : List Replacement} (hs : m.mergeSort le = us ++ a :: vs)
        (hus : ∀ b ∈ us, !a.le b) : (us ++ vs).filter (fun b => !a.le b) = us ∧
          (us ++ vs).filter (a.le ·) = vs := by
      have hp := List.pairwise_mergeSort le_trans le_total m
      rw [hs] at hp
      have hvs : ∀ b ∈ vs, a.le b = true := (List.pairwise_cons.1 (List.pairwise_append.1 hp).2.1).1
      constructor
      · rw [List.filter_append, List.filter_eq_self.2 hus, List.filter_eq_nil_iff.2, List.append_nil]
        intro b hb
        simp [hvs b hb]
      · rw [List.filter_append, List.filter_eq_nil_iff.2, List.filter_eq_self.2 hvs, List.nil_append]
        intro b hb
        simpa using hus b hb
    obtain ⟨hu, hv⟩ := split hcons hus
    obtain ⟨hu', hv'⟩ := split hcons' hus'
    rw [hl, hl'] at ih
    have hsu := ih.filter fun b => !a.le b
    have hsv := ih.filter (a.le ·)
    rw [hu, hu'] at hsu
    rw [hv, hv'] at hsv
    rw [hcons, hcons']
    exact hsu.append (hsv.cons_cons a)

end Replacement

/-! ## Changes -/

/-- What becomes of a part of a text: what is put before it, in its place and after it. -/
structure Change where
  before : List String
  instead : Option String
  after : List String

namespace Change

/-- The replacements that make a change of the part from `start` up to `stop`. -/
def replacements (c : Change) (start stop : Nat) : List Replacement :=
  c.before.map (.insertion start) ++ c.instead.toList.map (⟨start, stop, ·⟩) ++
    c.after.map (.insertion stop)

/-- What a part reads after a change. -/
def made (c : Change) (old : List Char) : List Char :=
  c.before.flatMap String.toList ++ c.instead.elim old String.toList ++
    c.after.flatMap String.toList

theorem mem_replacements {c : Change} {start stop : Nat} {r : Replacement}
    (h : r ∈ c.replacements start stop) (hs : start ≤ stop) :
    start ≤ r.start ∧ r.start ≤ r.stop ∧ r.stop ≤ stop := by
  simp only [replacements, List.mem_append, List.mem_map] at h
  rcases h with (⟨t, -, rfl⟩ | ⟨t, -, rfl⟩) | ⟨t, -, rfl⟩
  · exact ⟨Nat.le_refl _, Nat.le_refl _, hs⟩
  · exact ⟨Nat.le_refl _, hs, Nat.le_refl _⟩
  · exact ⟨hs, Nat.le_refl _, Nat.le_refl _⟩

theorem replacements_sorted (c : Change) {start stop : Nat} (hs : start ≤ stop) :
    (c.replacements start stop).Pairwise fun r r' => r.stop ≤ r'.start := by
  have hmap {p : Nat} (l : List String) :
      (l.map (Replacement.insertion p)).Pairwise fun r r' => r.stop ≤ r'.start :=
    List.pairwise_map.2 (List.pairwise_of_forall fun _ _ => Nat.le_refl _)
  refine List.pairwise_append.2 ⟨List.pairwise_append.2 ⟨hmap _, ?_, ?_⟩, hmap _, ?_⟩
  · cases c.instead <;> simp
  · intro r hr r' hr'
    obtain ⟨t, -, rfl⟩ := List.mem_map.1 hr
    obtain ⟨t', -, rfl⟩ := List.mem_map.1 hr'
    exact Nat.le_refl _
  · intro r hr r' hr'
    obtain ⟨t', -, rfl⟩ := List.mem_map.1 hr'
    rcases List.mem_append.1 hr with hr | hr
    · obtain ⟨t, -, rfl⟩ := List.mem_map.1 hr
      exact hs
    · obtain ⟨t, -, rfl⟩ := List.mem_map.1 hr
      exact Nat.le_refl _

end Change

theorem slice_self (cs : List Char) (position : Nat) : slice cs position position = [] := by
  rw [slice, Nat.sub_self, List.take_zero]

/-- Copying may stop anywhere before the next replacement. -/
theorem spliceFrom_advance {pre mid rest : List Char} {rs : List Replacement}
    (h : ∀ r ∈ rs, pre.length + mid.length ≤ r.start) :
    spliceFrom (pre ++ mid ++ rest) pre.length rs =
      mid ++ spliceFrom (pre ++ mid ++ rest) (pre.length + mid.length) rs := by
  cases rs with
  | nil =>
    rw [spliceFrom, spliceFrom, List.append_assoc, List.drop_left, ← List.append_assoc,
      ← List.length_append, List.drop_left]
  | cons r rs =>
    have hr := h r List.mem_cons_self
    obtain ⟨n, hn⟩ := Nat.exists_eq_add_of_le hr
    have hm : slice (pre ++ mid ++ rest) pre.length r.start =
        mid ++ slice (pre ++ mid ++ rest) (pre.length + mid.length) r.start := by
      rw [slice, slice, hn, Nat.add_assoc, Nat.add_sub_cancel_left, ← Nat.add_assoc,
        Nat.add_sub_cancel_left, ← List.length_append, List.drop_left, List.append_assoc,
        List.drop_left, List.take_length_add_append]
    rw [spliceFrom, spliceFrom, hm]
    simp only [List.append_assoc]

theorem spliceFrom_insertions (cs : List Char) (position : Nat) (texts : List String)
    (rs : List Replacement) :
    spliceFrom cs position (texts.map (.insertion position) ++ rs) =
      texts.flatMap String.toList ++ spliceFrom cs position rs := by
  induction texts with
  | nil => rfl
  | cons t texts ih =>
    rw [List.flatMap_cons, List.append_assoc, ← ih]
    show slice cs position position ++ t.toList ++ _ = _
    rw [slice_self]
    rfl

theorem spliceFrom_instead {pre old rest : List Char} {instead : Option String}
    {rs : List Replacement} (h : ∀ r ∈ rs, pre.length + old.length ≤ r.start) :
    spliceFrom (pre ++ old ++ rest) pre.length
        (instead.toList.map (⟨pre.length, pre.length + old.length, ·⟩) ++ rs) =
      instead.elim old String.toList ++
        spliceFrom (pre ++ old ++ rest) (pre.length + old.length) rs := by
  cases instead with
  | none => exact spliceFrom_advance h
  | some t =>
    show slice _ pre.length pre.length ++ t.toList ++ _ = _
    rw [slice_self]
    rfl

/-- A change is made where it stands, and the copying goes on after it. -/
theorem spliceFrom_change {pre gap old rest : List Char} {start stop : Nat} (c : Change)
    {rs : List Replacement} (hs : start = pre.length + gap.length)
    (he : stop = start + old.length) (h : ∀ r ∈ rs, stop ≤ r.start) :
    spliceFrom (pre ++ (gap ++ old ++ rest)) pre.length (c.replacements start stop ++ rs) =
      gap ++ c.made old ++ spliceFrom (pre ++ (gap ++ old ++ rest)) stop rs := by
  have hall : ∀ r ∈ c.replacements start stop ++ rs, start ≤ r.start := by
    intro r hr
    rcases List.mem_append.1 hr with hr | hr
    · exact (Change.mem_replacements hr (by omega)).1
    · have := h r hr
      omega
  have hafter : ∀ r ∈ c.after.map (.insertion stop) ++ rs, stop ≤ r.start := by
    intro r hr
    rcases List.mem_append.1 hr with hr | hr
    · obtain ⟨t, -, rfl⟩ := List.mem_map.1 hr
      exact Nat.le_refl _
    · exact h r hr
  have hcs : pre ++ (gap ++ old ++ rest) = pre ++ gap ++ (old ++ rest) := by
    simp only [List.append_assoc]
  rw [hcs, spliceFrom_advance (fun r hr => hs ▸ hall r hr), ← hs, ← List.append_assoc (pre ++ gap)]
  subst he
  obtain rfl : start = (pre ++ gap).length := by rw [hs, List.length_append]
  simp only [Change.replacements, Change.made, List.append_assoc]
  rw [spliceFrom_insertions]
  simp only [← List.append_assoc] at hafter ⊢
  rw [List.append_assoc _ _ rs, spliceFrom_instead hafter, spliceFrom_insertions]
  simp only [List.append_assoc]

/-! ## Lengths -/

theorem length_slice (cs : List Char) (start stop : Nat) :
    (slice cs start stop).length = min (stop - start) (cs.length - start) := by
  rw [slice, List.length_take, List.length_drop]

theorem length_spliceFrom_through (cs : List Char) (start stop : Nat) (rs : List Replacement) :
    (spliceFrom cs start rs).length ≤ (slice cs start stop).length +
      (spliceFrom cs stop rs).length := by
  cases rs with
  | nil =>
    simp only [spliceFrom, List.length_drop, length_slice]
    omega
  | cons r rs =>
    simp only [spliceFrom, List.length_append, length_slice]
    omega

/-- How many characters replacements put in. -/
def inserted : List Replacement → Nat
  | [] => 0
  | r :: rs => r.text.toList.length + inserted rs

/-- How many characters replacements take out. -/
def removed : List Replacement → Nat
  | [] => 0
  | r :: rs => r.stop - r.start + removed rs

theorem inserted_append (rs rs' : List Replacement) :
    inserted (rs ++ rs') = inserted rs + inserted rs' := by
  induction rs with
  | nil => rw [List.nil_append, inserted, Nat.zero_add]
  | cons r rs ih => rw [List.cons_append, inserted, inserted, ih, Nat.add_assoc]

theorem removed_append (rs rs' : List Replacement) :
    removed (rs ++ rs') = removed rs + removed rs' := by
  induction rs with
  | nil => rw [List.nil_append, removed, Nat.zero_add]
  | cons r rs ih => rw [List.cons_append, removed, removed, ih, Nat.add_assoc]

theorem inserted_perm {rs rs' : List Replacement} (h : rs.Perm rs') :
    inserted rs = inserted rs' := by
  induction h with
  | nil => rfl
  | cons r _ ih => rw [inserted, inserted, ih]
  | swap r r' rs =>
    simp only [inserted]
    omega
  | trans _ _ ih ih' => rw [ih, ih']

theorem removed_perm {rs rs' : List Replacement} (h : rs.Perm rs') :
    removed rs = removed rs' := by
  induction h with
  | nil => rfl
  | cons r _ ih => rw [removed, removed, ih]
  | swap r r' rs =>
    simp only [removed]
    omega
  | trans _ _ ih ih' => rw [ih, ih']

/-- More replacements make a text as much longer as they put in more than they take out. -/
theorem length_spliceFrom_le (cs : List Char) {l l' : List Replacement} (h : l.Sublist l')
    (position : Nat) : (spliceFrom cs position l).length + removed l + inserted l' ≤
      (spliceFrom cs position l').length + removed l' + inserted l := by
  induction h generalizing position with
  | slnil => exact Nat.le_refl _
  | @cons l l' r _ ih =>
    have hskip := length_spliceFrom_through cs position r.start l
    have hover := length_spliceFrom_through cs r.start r.stop l
    have hrest := ih r.stop
    have hspan : (slice cs r.start r.stop).length ≤ r.stop - r.start := by
      rw [length_slice]
      omega
    simp only [spliceFrom, List.length_append, removed, inserted] at hrest ⊢
    omega
  | @cons_cons l l' r _ ih =>
    have hrest := ih r.stop
    simp only [spliceFrom, List.length_append, removed, inserted] at hrest ⊢
    omega

end TreeQuery.XPath
