import Mathlib.Data.List.Basic
import TreeQuery.Proofs.Splicing

/-!
# Splicing as simultaneous substitution

Replacements of spans that lie apart can be made one at a time, the rightmost first: the text
before it stays where it was, so the spans of the others keep their meaning (`MadeFromRight`). They
can as well be made at once, each place of the text giving what is put in there and its character,
if no span takes it away (`substituted`). Both are stated for a list as it was given, and both give
what splicing gives, which sorts the list and copies the text in one go (`splice_simultaneous`).
-/

namespace TreeQuery.XPath

namespace Replacement

/-- A text after one replacement. -/
def madeIn (r : Replacement) (cs : List Char) : List Char :=
  cs.take r.start ++ r.text.toList ++ cs.drop r.stop

/-- Whether a replacement takes away the character at a position. -/
def covers (r : Replacement) (i : Nat) : Bool := r.start ≤ i && i < r.stop

/-- Whether a replacement takes away the text from a position on. -/
def beginsAt (r : Replacement) (i : Nat) : Bool := r.start == i && i < r.stop

/-- Another arrangement of a list in which the replacements of each span keep their order. -/
def Reordered (l l' : List Replacement) : Prop :=
  l'.Perm l ∧ ∀ start stop, l'.filter (spans start stop) = l.filter (spans start stop)

theorem covers_iff {r : Replacement} {i : Nat} :
    r.covers i = true ↔ r.start ≤ i ∧ i < r.stop := by
  simp [covers]

theorem beginsAt_iff {r : Replacement} {i : Nat} :
    r.beginsAt i = true ↔ r.start = i ∧ i < r.stop := by
  simp [beginsAt]

theorem Reordered.mergeSort {l l' : List Replacement} (h : Reordered l l') :
    l'.mergeSort le = l.mergeSort le := by
  refine mergeSort_eq_of_filter (List.pairwise_mergeSort le_trans le_total l) fun start stop => ?_
  rw [filter_mergeSort, h.2]

end Replacement

open Replacement

/-- Replacements of spans that lie in a text of some length and do not overlap. -/
structure Separate (length : Nat) (l : List Replacement) : Prop where
  inside : ∀ r ∈ l, r.start ≤ r.stop ∧ r.stop ≤ length
  apart : l.Pairwise Apart

/-- A replacement that no other of the list reaches beyond the start of. So a span is to the right
of an insertion at its start, and of insertions at one position the last is the rightmost. -/
structure Rightmost (us : List Replacement) (r : Replacement) (vs : List Replacement) : Prop where
  before : ∀ a ∈ us ++ vs, a.stop ≤ r.start
  last : ∀ a ∈ vs, a.spans r.start r.stop = false

/-- Replacements made one at a time, from right to left. -/
inductive MadeFromRight : List Replacement → List Char → List Char → Prop
  | done (cs : List Char) : MadeFromRight [] cs cs
  | next {us vs : List Replacement} {r : Replacement} {cs out : List Char}
      (rightmost : Rightmost us r vs) (rest : MadeFromRight (us ++ vs) (r.madeIn cs) out) :
      MadeFromRight (us ++ r :: vs) cs out

/-- What is put in at a position: the insertions, in the order of the list, then what stands for a
span that begins there. -/
def putAt (l : List Replacement) (i : Nat) : List Char :=
  (l.filter (spans i i) ++ l.filter (beginsAt · i)).flatMap fun r => r.text.toList

/-- The character at a position, unless a span takes it away. -/
def keptAt (cs : List Char) (l : List Replacement) (i : Nat) : List Char :=
  if l.any (covers · i) then [] else cs[i]?.toList

/-- What the places before a position give. -/
def substitutedTo (cs : List Char) (l : List Replacement) (position : Nat) : List Char :=
  (List.range position).flatMap fun i => putAt l i ++ keptAt cs l i

/-- A text with all replacements made at once. Its last place is the one after its characters. -/
def substituted (cs : List Char) (l : List Replacement) : List Char :=
  substitutedTo cs l (cs.length + 1)

variable {us vs l : List Replacement} {r : Replacement} {cs out : List Char}

/-! ## The rightmost replacement -/

theorem mem_middle {a : Replacement} : a ∈ us ++ r :: vs ↔ a = r ∨ a ∈ us ++ vs := by
  rw [List.perm_middle.mem_iff, List.mem_cons]

theorem Separate.sublist {length : Nat} {l' : List Replacement} (h : Separate length l)
    (hl : l'.Sublist l) : Separate length l' :=
  ⟨fun r hr => h.inside r (hl.subset hr), h.apart.sublist hl⟩

theorem exists_rightmost {length : Nat} (h : Separate length l) (hl : l ≠ []) :
    ∃ us r vs, l = us ++ r :: vs ∧ Rightmost us r vs := by
  induction l with
  | nil => exact absurd rfl hl
  | cons a l ih =>
    by_cases hnil : l = []
    · exact ⟨[], a, [], by rw [hnil, List.nil_append], nofun, nofun⟩
    obtain ⟨us, r, vs, rfl, hr⟩ := ih (h.sublist (List.sublist_cons_self a l)) hnil
    by_cases hle : a.stop ≤ r.start
    · exact ⟨a :: us, r, vs, rfl, List.forall_mem_cons.2 ⟨hle, hr.before⟩, hr.last⟩
    -- otherwise all others end where the first one starts, or before
    have hmem : r ∈ us ++ r :: vs := mem_middle.2 (.inl rfl)
    have hinside := h.inside r (List.mem_cons_of_mem a hmem)
    have hstart : r.stop ≤ a.start :=
      ((List.pairwise_cons.1 h.apart).1 r hmem).resolve_left hle
    refine ⟨[], a, us ++ r :: vs, rfl, fun b hb => ?_, fun b hb => ?_⟩
    · rcases mem_middle.1 hb with rfl | hb
      · exact hstart
      · have := hr.before b hb
        omega
    · refine Bool.eq_false_iff.2 fun hs => hle ?_
      obtain ⟨hs, he⟩ := spans_iff.1 hs
      rcases mem_middle.1 hb with rfl | hb
      · omega
      · exact he ▸ hr.before b hb

/-- The other replacements lie in the text that the rightmost one leaves. -/
theorem Separate.rest (h : Separate cs.length (us ++ r :: vs)) (hr : Rightmost us r vs) :
    Separate (r.madeIn cs).length (us ++ vs) := by
  refine ⟨fun a ha => ⟨(h.inside a (mem_middle.2 (.inr ha))).1, ?_⟩, ?_⟩
  · have := hr.before a ha
    have := h.inside r (mem_middle.2 (.inl rfl))
    simp only [madeIn, List.length_append, List.length_take]
    omega
  · exact h.apart.sublist ((List.sublist_cons_self r vs).append_left us)

theorem exists_madeFromRight (h : Separate cs.length l) : ∃ out, MadeFromRight l cs out := by
  -- the rightmost one may stand anywhere in the list, so the induction is on the length
  induction hn : l.length generalizing l cs with
  | zero =>
    obtain rfl := List.length_eq_zero_iff.1 hn
    exact ⟨cs, .done cs⟩
  | succ n ih =>
    obtain ⟨us, r, vs, rfl, hr⟩ := exists_rightmost h (List.ne_nil_of_length_eq_add_one hn)
    have hlength : (us ++ vs).length = n := by
      rw [List.perm_middle.length_eq, List.length_cons] at hn
      omega
    obtain ⟨out, hout⟩ := ih (h.rest hr) hlength
    exact ⟨out, .next hr hout⟩

/-! ## The text after one replacement -/

theorem slice_eq_drop_take (cs : List Char) (start stop : Nat) :
    slice cs start stop = (cs.take stop).drop start := by
  rw [slice, List.drop_take]

theorem take_madeIn (hr : r.start ≤ cs.length) {position : Nat} (hp : position ≤ r.start) :
    (r.madeIn cs).take position = cs.take position := by
  rw [madeIn, List.append_assoc,
    List.take_append_of_le_length (by rw [List.length_take]; omega), List.take_take,
    Nat.min_eq_left hp]

theorem drop_madeIn (hr : r.start ≤ cs.length) {position : Nat} (hp : position ≤ r.start) :
    (r.madeIn cs).drop position =
      slice cs position r.start ++ r.text.toList ++ cs.drop r.stop := by
  rw [madeIn, List.append_assoc,
    List.drop_append_of_le_length (by rw [List.length_take]; omega), slice_eq_drop_take,
    List.append_assoc]

/-! ## One at a time -/

theorem mergeSort_rightmost (hinside : ∀ a ∈ us ++ r :: vs, a.start ≤ a.stop)
    (hr : Rightmost us r vs) :
    (us ++ r :: vs).mergeSort le = (us ++ vs).mergeSort le ++ [r] := by
  refine mergeSort_eq_of_filter ?_ fun start stop => ?_
  · refine List.pairwise_append.2 ⟨List.pairwise_mergeSort le_trans le_total _,
      List.pairwise_singleton _ r, fun a ha b hb => ?_⟩
    obtain rfl := List.mem_singleton.1 hb
    have ha := (List.mergeSort_perm _ _).mem_iff.1 ha
    have := hr.before a ha
    have := hinside a (mem_middle.2 (.inr ha))
    have := hinside b (mem_middle.2 (.inl rfl))
    rw [le_iff]
    omega
  · rw [List.filter_append, List.filter_append, filter_mergeSort, List.filter_append,
      List.filter_cons, List.filter_cons, List.filter_nil]
    split
    · rename_i hs
      obtain ⟨rfl, rfl⟩ := spans_iff.1 hs
      have hnone : vs.filter (spans r.start r.stop) = [] :=
        List.filter_eq_nil_iff.2 fun a ha => Bool.eq_false_iff.1 (hr.last a ha)
      rw [hnone, List.append_nil]
    · rw [List.append_nil]

/-- The last of sorted replacements may be made before the others. -/
theorem spliceFrom_concat {rs : List Replacement} (hr : r.start ≤ cs.length)
    (hrs : ∀ a ∈ rs, a.start ≤ a.stop ∧ a.stop ≤ r.start) {position : Nat}
    (hp : position ≤ r.start) :
    spliceFrom cs position (rs ++ [r]) = spliceFrom (r.madeIn cs) position rs := by
  induction rs generalizing position with
  | nil => rw [List.nil_append, spliceFrom, spliceFrom, spliceFrom, drop_madeIn hr hp]
  | cons a rs ih =>
    have ha := hrs a List.mem_cons_self
    have hslice : slice (r.madeIn cs) position a.start = slice cs position a.start := by
      rw [slice_eq_drop_take, slice_eq_drop_take, take_madeIn hr (by omega)]
    rw [List.cons_append, spliceFrom, spliceFrom, hslice,
      ih (fun b hb => hrs b (List.mem_cons_of_mem a hb)) ha.2]

theorem MadeFromRight.eq_spliceFrom (h : MadeFromRight l cs out) (hl : Separate cs.length l) :
    out = spliceFrom cs 0 (l.mergeSort le) := by
  induction h with
  | done cs => rw [List.mergeSort_nil, spliceFrom, List.drop_zero]
  | @next us vs r cs out hr _ ih =>
    have hstart : r.start ≤ cs.length := by
      have := hl.inside r (mem_middle.2 (.inl rfl))
      omega
    have hrest : ∀ a ∈ (us ++ vs).mergeSort le, a.start ≤ a.stop ∧ a.stop ≤ r.start := by
      intro a ha
      have ha := (List.mergeSort_perm _ _).mem_iff.1 ha
      exact ⟨(hl.inside a (mem_middle.2 (.inr ha))).1, hr.before a ha⟩
    rw [mergeSort_rightmost (fun a ha => (hl.inside a ha).1) hr,
      spliceFrom_concat hstart hrest (Nat.zero_le _), ih (hl.rest hr)]

/-! ## Place by place -/

theorem substitutedTo_succ (cs : List Char) (l : List Replacement) (i : Nat) :
    substitutedTo cs l (i + 1) = substitutedTo cs l i ++ putAt l i ++ keptAt cs l i := by
  rw [substitutedTo, List.range_succ, List.flatMap_append, List.flatMap_singleton, substitutedTo,
    List.append_assoc]

theorem slice_succ (cs : List Char) {start stop : Nat} (h : start ≤ stop) :
    slice cs start (stop + 1) = slice cs start stop ++ cs[stop]?.toList := by
  rw [slice, slice, Nat.succ_sub h, List.take_add_one, List.getElem?_drop, Nat.add_sub_cancel' h]

theorem putAt_eq_nil {i : Nat} (hl : ∀ a ∈ l, a.start ≠ i) : putAt l i = [] := by
  have hspans : l.filter (spans i i) = [] :=
    List.filter_eq_nil_iff.2 fun a ha hs => hl a ha (spans_iff.1 hs).1
  have hbegins : l.filter (beginsAt · i) = [] :=
    List.filter_eq_nil_iff.2 fun a ha hs => hl a ha (beginsAt_iff.1 hs).1
  rw [putAt, hspans, hbegins]
  rfl

theorem keptAt_of_ended {i : Nat} (hl : ∀ a ∈ l, a.stop ≤ i) : keptAt cs l i = cs[i]?.toList := by
  refine if_neg fun h => ?_
  obtain ⟨a, ha, hc⟩ := List.any_eq_true.1 h
  exact Nat.not_lt.2 (hl a ha) (covers_iff.1 hc).2

theorem substitutedTo_after {position i : Nat} (hi : position ≤ i)
    (hl : ∀ a ∈ l, a.start ≤ a.stop ∧ a.stop ≤ position) :
    substitutedTo cs l (i + 1) =
      substitutedTo cs l position ++ putAt l position ++ slice cs position (i + 1) := by
  induction hi with
  | refl =>
    rw [substitutedTo_succ, keptAt_of_ended fun a ha => (hl a ha).2, slice_succ cs Nat.le.refl,
      slice_self, List.nil_append]
  | @step i hi ih =>
    have hi : position ≤ i := hi
    have hput : putAt l (i + 1) = [] := putAt_eq_nil fun a ha => by
      have := hl a ha
      omega
    have hkept : keptAt cs l (i + 1) = cs[i + 1]?.toList := keptAt_of_ended fun a ha => by
      have := hl a ha
      omega
    rw [substitutedTo_succ, ih, hput, hkept, List.append_nil, slice_succ cs (by omega : _ ≤ i + 1),
      List.append_assoc _ (slice _ _ _)]

theorem substituted_after {position : Nat} (hp : position ≤ cs.length)
    (hl : ∀ a ∈ l, a.start ≤ a.stop ∧ a.stop ≤ position) :
    substituted cs l = substitutedTo cs l position ++ putAt l position ++ cs.drop position := by
  rw [substituted, substitutedTo_after hp hl, slice_eq_drop_take,
    List.take_of_length_le (Nat.le_succ _)]

/-- The places of a span give nothing but the text that is put in where it begins. -/
theorem substitutedTo_covered {position : Nat} (hr : r ∈ l)
    (hl : ∀ a ∈ l, a = r ∨ a.start ≤ a.stop ∧ a.stop ≤ r.start) (hi : r.start + 1 ≤ position)
    (hstop : position ≤ r.stop) :
    substitutedTo cs l position = substitutedTo cs l r.start ++ putAt l r.start := by
  have hkept {j : Nat} (hj : r.start ≤ j) (hstop : j < r.stop) : keptAt cs l j = [] :=
    if_pos (List.any_eq_true.2 ⟨r, hr, covers_iff.2 ⟨hj, hstop⟩⟩)
  induction hi with
  | refl => rw [substitutedTo_succ, hkept Nat.le.refl hstop, List.append_nil]
  | @step i hi ih =>
    have hi : r.start < i := hi
    have hput : putAt l i = [] := putAt_eq_nil fun a ha => by
      rcases hl a ha with rfl | _ <;> omega
    rw [substitutedTo_succ, ih (Nat.le_of_lt hstop), hput, hkept (Nat.le_of_lt hi) hstop,
      List.append_nil, List.append_nil]

theorem substituted_rightmost (hl : Separate cs.length (us ++ r :: vs)) (hr : Rightmost us r vs) :
    substituted cs (us ++ r :: vs) = substitutedTo cs (us ++ r :: vs) r.start ++
      putAt (us ++ r :: vs) r.start ++ cs.drop r.stop := by
  have hmem : r ∈ us ++ r :: vs := mem_middle.2 (.inl rfl)
  have hinside := hl.inside r hmem
  have hbefore : ∀ a ∈ us ++ r :: vs, a = r ∨ a.start ≤ a.stop ∧ a.stop ≤ r.start := fun a ha =>
    (mem_middle.1 ha).imp_right fun h => ⟨(hl.inside a ha).1, hr.before a h⟩
  have hended : ∀ a ∈ us ++ r :: vs, a.start ≤ a.stop ∧ a.stop ≤ r.stop := by
    intro a ha
    rcases hbefore a ha with rfl | _ <;> omega
  rw [substituted_after hinside.2 hended]
  rcases Nat.eq_or_lt_of_le hinside.1 with heq | hlt
  · rw [heq]
  · have hput : putAt (us ++ r :: vs) r.stop = [] := putAt_eq_nil fun a ha => by
      rcases hbefore a ha with rfl | _ <;> omega
    rw [hput, List.append_nil, substitutedTo_covered hmem hbefore hlt Nat.le.refl]

theorem filter_beginsAt {i : Nat} (hl : ∀ a ∈ l, a.stop ≤ i) : l.filter (beginsAt · i) = [] :=
  List.filter_eq_nil_iff.2 fun a ha hs => Nat.not_lt.2 (hl a ha) (beginsAt_iff.1 hs).2

/-- Of all that is put in where the rightmost replacement starts its text comes last. -/
theorem putAt_rightmost (hr : Rightmost us r vs) (hinside : r.start ≤ r.stop) :
    putAt (us ++ r :: vs) r.start = putAt (us ++ vs) r.start ++ r.text.toList := by
  obtain ⟨hus, hvs⟩ := List.forall_mem_append.1 hr.before
  have hus := filter_beginsAt hus
  have hvs := filter_beginsAt hvs
  rcases Nat.eq_or_lt_of_le hinside with heq | hlt
  · have hspans : r.spans r.start r.start = true := spans_iff.2 ⟨rfl, heq.symm⟩
    have hbegins : r.beginsAt r.start = false := by simp [beginsAt, heq]
    have hnone : vs.filter (spans r.start r.start) = [] := by
      refine List.filter_eq_nil_iff.2 fun a ha => Bool.eq_false_iff.1 ?_
      have := hr.last a ha
      rwa [← heq] at this
    simp [putAt, hus, hvs, hspans, hbegins, hnone]
  · have hspans : r.spans r.start r.start = false := by simp [spans, Nat.ne_of_gt hlt]
    have hbegins : r.beginsAt r.start = true := beginsAt_iff.2 ⟨rfl, hlt⟩
    simp [putAt, hus, hvs, hspans, hbegins]

/-- The places before the start of a replacement give the same once it is made. -/
theorem substitutedTo_madeIn (hr : r.start ≤ cs.length) :
    substitutedTo (r.madeIn cs) (us ++ vs) r.start =
      substitutedTo cs (us ++ r :: vs) r.start := by
  refine List.flatMap_congr fun i hi => ?_
  have hi : i < r.start := List.mem_range.1 hi
  have hspans : r.spans i i = false := by simp [spans, Nat.ne_of_gt hi]
  have hbegins : r.beginsAt i = false := by simp [beginsAt, Nat.ne_of_gt hi]
  have hcovers : r.covers i = false :=
    Bool.eq_false_iff.2 fun hs => Nat.not_le.2 hi (covers_iff.1 hs).1
  have hchar : (r.madeIn cs)[i]? = cs[i]? := by
    rw [← List.getElem?_take_of_lt hi, take_madeIn hr Nat.le.refl, List.getElem?_take_of_lt hi]
  simp [putAt, keptAt, hspans, hbegins, hcovers, hchar]

theorem MadeFromRight.eq_substituted (h : MadeFromRight l cs out) (hl : Separate cs.length l) :
    out = substituted cs l := by
  induction h with
  | done cs =>
    rw [substituted_after (l := []) (Nat.zero_le _) nofun]
    rfl
  | @next us vs r cs out hr _ ih =>
    have hinside := hl.inside r (mem_middle.2 (.inl rfl))
    have hstart : r.start ≤ cs.length := Nat.le_trans hinside.1 hinside.2
    have hrest := hl.rest hr
    have hmade : r.start ≤ (r.madeIn cs).length := by
      simp only [madeIn, List.length_append, List.length_take]
      omega
    have hended : ∀ a ∈ us ++ vs, a.start ≤ a.stop ∧ a.stop ≤ r.start := fun a ha =>
      ⟨(hrest.inside a ha).1, hr.before a ha⟩
    rw [ih hrest, substituted_after hmade hended, substitutedTo_madeIn hstart,
      drop_madeIn hstart Nat.le.refl, slice_self, List.nil_append, substituted_rightmost hl hr,
      putAt_rightmost hr hinside.1]
    simp only [List.append_assoc]

/-- Splicing makes replacements all at once. They may as well be made one at a time from right to
left; each place of the text gives what is put in there and, unless a span takes it away, its
character; and the order in which replacements of different spans are listed does not matter. -/
theorem splice_simultaneous (text : String) {l : List Replacement}
    (h : Separate text.toList.length l) :
    (∀ out, MadeFromRight l text.toList out ↔ out = (splice text l).toList) ∧
      (splice text l).toList = substituted text.toList l ∧
      ∀ l', Reordered l l' → splice text l' = splice text l := by
  have hsplice : (splice text l).toList = spliceFrom text.toList 0 (l.mergeSort le) := by
    rw [splice, String.toList_ofList]
  obtain ⟨out, hout⟩ := exists_madeFromRight h
  have heq : out = (splice text l).toList := by rw [hsplice, hout.eq_spliceFrom h]
  refine ⟨fun out' => ⟨fun h' => ?_, fun h' => ?_⟩, ?_, fun l' hl' => ?_⟩
  · rw [hsplice, h'.eq_spliceFrom h]
  · rw [h', ← heq]
    exact hout
  · rw [← heq, hout.eq_substituted h]
  · rw [splice, splice, hl'.mergeSort]

/-- Insertions at both ends of a span, two of them at one position, and a span listed before what
is inserted at its start. -/
theorem splice_simultaneous_unsorted :
    let l : List Replacement := [⟨4, 5, "c"⟩, ⟨0, 3, "a"⟩, ⟨3, 3, ")"⟩, ⟨0, 0, "("⟩, ⟨4, 4, "/"⟩,
      ⟨0, 0, "/"⟩]
    let l' : List Replacement := [⟨0, 0, "("⟩, ⟨0, 0, "/"⟩, ⟨0, 3, "a"⟩, ⟨3, 3, ")"⟩, ⟨4, 4, "/"⟩,
      ⟨4, 5, "c"⟩]
    Separate "p:a|b".toList.length l ∧ Reordered l l' ∧
      MadeFromRight l "p:a|b".toList "(/a)|/c".toList ∧ splice "p:a|b" l = "(/a)|/c" ∧
      splice "p:a|b" l' = "(/a)|/c" := by
  intro l l'
  have h : Separate "p:a|b".toList.length l := ⟨by decide +kernel, by simp [l, Apart]⟩
  have hl' : Reordered l l' := by
    refine ⟨by decide +kernel, fun start stop => ?_⟩
    grind [spans]
  obtain ⟨hmade, hplaces, horder⟩ := splice_simultaneous "p:a|b" h
  have hl : splice "p:a|b" l = "(/a)|/c" :=
    String.toList_injective (hplaces.trans (by decide +kernel))
  exact ⟨h, hl', (hmade _).2 (by rw [hl]), hl, (horder l' hl').trans hl⟩

end TreeQuery.XPath
