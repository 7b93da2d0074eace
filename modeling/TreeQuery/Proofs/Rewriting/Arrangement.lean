import TreeQuery.Proofs.Rewriting.Seam

/-!
# Replacements arranged by blocks

Insertions before and after blocks and edits of whole blocks, however they are listed, are made
block by block if what is inserted after a block is listed before what is inserted where the next
one starts (`mergeSort_eq_arranged`).
-/

namespace TreeQuery.XPath

open Replacement

/-- The change of a block by what is inserted at its ends and put in its place. -/
def changeBy (openings closings : List Replacement) (edit : Block → Option String) (b : Block) :
    Change where
  before := (openings.filter (spans b.start b.start)).map Replacement.text
  instead := edit b
  after := (closings.filter (spans b.stop b.stop)).map Replacement.text

/-- The replacement that makes an edit. -/
def editOf (edit : Block → Option String) (b : Block) : Option Replacement :=
  (edit b).map fun text => ⟨b.start, b.stop, text⟩

/-- All replacements, block by block. -/
def arranged (openings closings : List Replacement) (edit : Block → Option String)
    (bs : List Block) : List Replacement :=
  bs.flatMap fun b => (changeBy openings closings edit b).replacements b.start b.stop

variable {openings closings : List Replacement} {edit : Block → Option String} {bs : List Block}

theorem filter_spans_spans (l : List Replacement) (s e p q : Nat) :
    (l.filter (spans s e)).filter (spans p q) =
      if s = p ∧ e = q then l.filter (spans p q) else [] := by
  rw [List.filter_filter]
  split
  · rename_i h
    rw [h.1, h.2]
    simp only [Bool.and_self]
  · rename_i h
    rw [List.filter_eq_nil_iff]
    intro r _ hr
    rw [Bool.and_eq_true, spans_iff, spans_iff] at hr
    omega

theorem map_insertion {l : List Replacement} (h : ∀ r ∈ l, r = insertion r.start r.text)
    (position : Nat) : ((l.filter (spans position position)).map Replacement.text).map
      (insertion position) = l.filter (spans position position) := by
  rw [List.map_map]
  refine (List.map_congr_left fun r hr => ?_).trans (List.map_id _)
  obtain ⟨hr, hs⟩ := List.mem_filter.1 hr
  rw [Function.comp_apply, ← (spans_iff.1 hs).1]
  exact (h r hr).symm

theorem replacements_changeBy (hopen : ∀ r ∈ openings, r = insertion r.start r.text)
    (hclose : ∀ r ∈ closings, r = insertion r.start r.text) (b : Block) :
    (changeBy openings closings edit b).replacements b.start b.stop =
      openings.filter (spans b.start b.start) ++ (editOf edit b).toList ++
        closings.filter (spans b.stop b.stop) := by
  simp only [Change.replacements, changeBy, map_insertion hopen, map_insertion hclose]
  cases h : edit b <;> simp [editOf, h]

/-! ## What stands at one position -/

/-- At one position stands what is inserted after the block that stops there, then what is inserted
before the block that starts there. -/
theorem filter_ends (h : InOrder bs) (position : Nat) :
    bs.flatMap (fun b =>
        (openings.filter (spans b.start b.start)).filter (spans position position) ++
          (closings.filter (spans b.stop b.stop)).filter (spans position position)) =
      (if ∃ b ∈ bs, b.stop = position then closings.filter (spans position position) else []) ++
        (if ∃ b ∈ bs, b.start = position then openings.filter (spans position position)
          else []) := by
  induction bs with
  | nil => simp
  | cons b bs ih =>
    have hb := h.proper b List.mem_cons_self
    have hlater : ∀ b' ∈ bs, b.stop ≤ b'.start ∧ b'.start < b'.stop := fun b' hb' =>
      ⟨(List.pairwise_cons.1 h.sorted).1 b' hb', h.proper b' (List.mem_cons_of_mem _ hb')⟩
    rw [List.flatMap_cons, ih h.of_cons, filter_spans_spans, filter_spans_spans]
    simp only [and_self, List.mem_cons, exists_eq_or_imp]
    by_cases hstart : b.start = position
    · have hnone : ∀ b' ∈ bs, b'.start ≠ position ∧ b'.stop ≠ position := fun b' hb' => by
        have := hlater b' hb'
        omega
      have hs : ¬∃ b' ∈ bs, b'.start = position := fun ⟨b', hb', he⟩ => (hnone b' hb').1 he
      have he : ¬∃ b' ∈ bs, b'.stop = position := fun ⟨b', hb', he⟩ => (hnone b' hb').2 he
      have hne : b.stop ≠ position := by omega
      simp [hstart, hne, hs, he]
    · by_cases hstop : b.stop = position
      · have he : ¬∃ b' ∈ bs, b'.stop = position := fun ⟨b', hb', he⟩ => by
          have := hlater b' hb'
          omega
        simp [hstart, hstop, he]
      · simp [hstart, hstop]

/-! ## Arranging -/

theorem mem_arranged {r : Replacement} (h : InOrder bs)
    (hr : r ∈ arranged openings closings edit bs) : r.start ≤ r.stop := by
  obtain ⟨b, hb, hr⟩ := List.mem_flatMap.1 hr
  exact (Change.mem_replacements hr (Nat.le_of_lt (h.proper b hb))).2.1

theorem arranged_sorted (h : InOrder bs) :
    (arranged openings closings edit bs).Pairwise fun r r' => r.stop ≤ r'.start := by
  refine List.pairwise_flatMap.2 ⟨fun b hb => ?_, ?_⟩
  · exact Change.replacements_sorted _ (Nat.le_of_lt (h.proper b hb))
  · refine h.sorted.imp_of_mem fun {b b'} hb hb' hle r hr r' hr' => ?_
    have := (Change.mem_replacements hr (Nat.le_of_lt (h.proper b hb))).2.2
    have := (Change.mem_replacements hr' (Nat.le_of_lt (h.proper b' hb'))).1
    omega

theorem filter_arranged_self (h : InOrder bs)
    (hopen : ∀ r ∈ openings, r = insertion r.start r.text)
    (hclose : ∀ r ∈ closings, r = insertion r.start r.text)
    (hstart : ∀ r ∈ openings, ∃ b ∈ bs, b.start = r.start)
    (hstop : ∀ r ∈ closings, ∃ b ∈ bs, b.stop = r.start) (position : Nat) :
    (arranged openings closings edit bs).filter (spans position position) =
      closings.filter (spans position position) ++ openings.filter (spans position position) := by
  have hb : ∀ b ∈ bs, ((changeBy openings closings edit b).replacements b.start b.stop).filter
      (spans position position) =
        (openings.filter (spans b.start b.start)).filter (spans position position) ++
          (closings.filter (spans b.stop b.stop)).filter (spans position position) := by
    intro b hb
    have hedit : (editOf edit b).toList.filter (spans position position) = [] := by
      rw [List.filter_eq_nil_iff]
      intro r hr hs
      have hlt := h.proper b hb
      obtain ⟨text, -, rfl⟩ := Option.map_eq_some_iff.1 (Option.mem_toList.1 hr)
      have hb : b.start = position ∧ b.stop = position := spans_iff.1 hs
      omega
    rw [replacements_changeBy hopen hclose, List.filter_append, List.filter_append, hedit,
      List.append_nil]
  have hnone {l : List Replacement} {p : Prop} [Decidable p]
      (hl : ∀ r ∈ l, r.start = position → p) :
      (if p then l.filter (spans position position) else []) =
        l.filter (spans position position) := by
    split
    · rfl
    · rename_i hp
      refine (List.filter_eq_nil_iff.2 fun r hr hs => hp ?_).symm
      exact hl r hr (spans_iff.1 hs).1
  rw [arranged, List.filter_flatMap, List.flatMap_congr hb, filter_ends h,
    hnone fun r hr he => he ▸ hstop r hr, hnone fun r hr he => he ▸ hstart r hr]

theorem filter_arranged_of_ne (hopen : ∀ r ∈ openings, r = insertion r.start r.text)
    (hclose : ∀ r ∈ closings, r = insertion r.start r.text) {start stop : Nat} (h : start ≠ stop) :
    (arranged openings closings edit bs).filter (spans start stop) =
      (bs.filterMap (editOf edit)).filter (spans start stop) := by
  have hnone {l : List Replacement} (hl : ∀ r ∈ l, r = insertion r.start r.text) (p : Nat) :
      (l.filter (spans p p)).filter (spans start stop) = [] := by
    rw [filter_spans_spans, if_neg]
    omega
  induction bs with
  | nil => rfl
  | cons b bs ih =>
    rw [arranged, List.flatMap_cons, List.filter_append, replacements_changeBy hopen hclose,
      List.filter_append, List.filter_append, hnone hopen, hnone hclose, List.filterMap_cons]
    rw [arranged] at ih
    rw [ih]
    cases editOf edit b with
    | none => rfl
    | some r =>
      rw [List.nil_append, List.append_nil, ← List.filter_append]
      rfl

/-- Replacements are made block by block if, at each position, what is inserted after the block
that stops there comes before what is inserted before the block that starts there. -/
theorem mergeSort_eq_arranged {rs : List Replacement} (h : InOrder bs)
    (hopen : ∀ r ∈ openings, r = insertion r.start r.text)
    (hclose : ∀ r ∈ closings, r = insertion r.start r.text)
    (hstart : ∀ r ∈ openings, ∃ b ∈ bs, b.start = r.start)
    (hstop : ∀ r ∈ closings, ∃ b ∈ bs, b.stop = r.start)
    (hself : ∀ position, rs.filter (spans position position) =
      closings.filter (spans position position) ++ openings.filter (spans position position))
    (hedit : ∀ start stop, start ≠ stop → rs.filter (spans start stop) =
      (bs.filterMap (editOf edit)).filter (spans start stop)) :
    rs.mergeSort Replacement.le = arranged openings closings edit bs := by
  refine mergeSort_eq_of_filter ?_ fun start stop => ?_
  · refine (arranged_sorted h).imp_of_mem fun {r r'} hr hr' hle => ?_
    have := mem_arranged h hr
    have := mem_arranged h hr'
    rw [le_iff]
    omega
  · by_cases hne : start = stop
    · rw [← hne, hself, filter_arranged_self h hopen hclose hstart hstop]
    · rw [hedit _ _ hne, filter_arranged_of_ne hopen hclose hne]

/-- Replacements that can be arranged do not overlap. -/
theorem pairwise_apart {rs : List Replacement} (h : InOrder bs)
    (hrs : rs.mergeSort Replacement.le = arranged openings closings edit bs) :
    rs.Pairwise Apart := by
  have hp : (arranged openings closings edit bs).Pairwise Apart :=
    (arranged_sorted h).imp fun hle => .inl hle
  rw [← hrs] at hp
  exact ((List.mergeSort_perm rs Replacement.le).pairwise_iff Apart.symm).1 hp

end TreeQuery.XPath
