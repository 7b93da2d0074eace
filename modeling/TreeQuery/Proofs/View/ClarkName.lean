import TreeQuery.Proofs.View.Run

/-!
# Names in braces

A name without a colon has no braces, so a URI in braces and the name after it are told apart
(`clark_injective`), and a view reads from them that URI and that name, or refuses them
(`ofClark?_eq`). Whatever else a view reads is written as it was, but for braces that hold nothing
(`eq_or_braces`).
-/

namespace TreeQuery

open Text

variable {uri uri' name name' s : String}

theorem not_isNameChar_of_brace {c : Char} (hc : c = '\x7b' ∨ c = '\x7d') :
    isNameChar c = false := by
  rcases hc with rfl | rfl <;> decide

theorem not_mem_of_isName {cs : List Char} (h : isName cs = true) {c : Char}
    (hc : c = '\x7b' ∨ c = '\x7d') : c ∉ cs := by
  intro hm
  have hchar := isNameChar_of_mem h hm
  rw [not_isNameChar_of_brace hc] at hchar
  cases hchar

theorem ne_empty_of_isName (h : isName name.toList = true) : name ≠ "" := by
  rintro rfl
  cases h

/-! ## Up to a character -/

theorem takeWhile_until {c : Char} {as : List Char} (h : c ∉ as) (bs : List Char) :
    (as ++ c :: bs).takeWhile (· != c) = as := by
  have hall : ∀ d ∈ as, (d != c) = true := fun d hd => bne_iff_ne.2 (ne_of_mem_of_not_mem hd h)
  rw [List.takeWhile_append_of_pos hall]
  simp

theorem dropWhile_until {c : Char} {as : List Char} (h : c ∉ as) (bs : List Char) :
    (as ++ c :: bs).dropWhile (· != c) = c :: bs := by
  have hall : ∀ d ∈ as, (d != c) = true := fun d hd => bne_iff_ne.2 (ne_of_mem_of_not_mem hd h)
  rw [List.dropWhile_append_of_pos hall]
  simp

namespace Namespace

theorem clark_of_uri (h : uri ≠ "") (name : String) :
    (clark uri name).toList = '\x7b' :: (uri.toList ++ '\x7d' :: name.toList) := by
  rw [clark, if_neg h]
  simp

theorem clark_empty (name : String) : clark "" name = name := if_pos rfl

/-- What stands before and after a brace is known if there is no brace after it. -/
theorem append_brace_injective {as bs cs ds : List Char} (hb : '\x7d' ∉ bs) (hd : '\x7d' ∉ ds)
    (h : as ++ '\x7d' :: bs = cs ++ '\x7d' :: ds) : as = cs ∧ bs = ds := by
  rcases List.append_eq_append_iff.1 h with ⟨l, rfl, hl⟩ | ⟨l, rfl, hl⟩
  · cases l with
    | nil =>
      cases hl
      exact ⟨(List.append_nil _).symm, rfl⟩
    | cons c l =>
      cases hl
      exact absurd (List.mem_append_right _ List.mem_cons_self) hb
  · cases l with
    | nil =>
      cases hl
      exact ⟨List.append_nil _, rfl⟩
    | cons c l =>
      cases hl
      exact absurd (List.mem_append_right _ List.mem_cons_self) hd

theorem clark_injective (hn : isName name.toList = true) (hn' : isName name'.toList = true)
    (h : clark uri name = clark uri' name') : uri = uri' ∧ name = name' := by
  have hplain {name uri' name' : String} (hn : isName name.toList = true) (hu : uri' ≠ "")
      (h : name = clark uri' name') : False := by
    have hlist := congrArg String.toList h
    rw [clark_of_uri hu] at hlist
    exact not_mem_of_isName hn (.inl rfl) (hlist ▸ List.mem_cons_self)
  by_cases hu : uri = ""
  · subst hu
    rw [clark_empty] at h
    by_cases hu' : uri' = ""
    · subst hu'
      exact ⟨rfl, h⟩
    · exact (hplain hn hu' h).elim
  · by_cases hu' : uri' = ""
    · subst hu'
      rw [clark_empty] at h
      exact (hplain hn' hu h.symm).elim
    · have hlist := congrArg String.toList h
      rw [clark_of_uri hu, clark_of_uri hu', List.cons.injEq] at hlist
      obtain ⟨huri, hname⟩ := append_brace_injective (not_mem_of_isName hn (.inr rfl))
        (not_mem_of_isName hn' (.inr rfl)) hlist.2
      exact ⟨String.toList_inj.1 huri, String.toList_inj.1 hname⟩

end Namespace

namespace ExpandedName

theorem ofClark?_braced {s : String} {as bs : List Char}
    (hs : s.toList = '\x7b' :: (as ++ '\x7d' :: bs)) (ha : '\x7d' ∉ as) (hb : bs ≠ []) :
    ofClark? s = some ⟨String.ofList as, String.ofList bs⟩ := by
  unfold ofClark?
  rw [hs]
  simp only [takeWhile_until ha, dropWhile_until ha, List.isEmpty_iff, hb, if_false]

/-- A URI in braces and a name are read as such if the URI has no closing brace. -/
theorem ofClark?_clark (hn : isName name.toList = true) (hu : '\x7d' ∉ uri.toList) :
    ofClark? (Namespace.clark uri name) = some ⟨uri, name⟩ := by
  by_cases he : uri = ""
  · subst he
    rw [Namespace.clark_empty]
    unfold ofClark?
    split
    · next rest hs => exact absurd (hs ▸ List.mem_cons_self) (not_mem_of_isName hn (.inl rfl))
    · rw [if_neg (ne_empty_of_isName hn)]
  · rw [ofClark?_braced (Namespace.clark_of_uri he name) hu, String.ofList_toList,
      String.ofList_toList]
    rintro hnil
    rw [hnil] at hn
    cases hn

/-- What is read from a URI in braces and a name is these, or has no name. -/
theorem ofClark?_eq {x : ExpandedName} (hn : isName name.toList = true)
    (h : ofClark? (Namespace.clark uri name) = some x) (hx : isName x.localName.toList = true) :
    x = ⟨uri, name⟩ ∧ '\x7d' ∉ uri.toList := by
  by_cases hu : '\x7d' ∈ uri.toList
  · have he : uri ≠ "" := by
      rintro rfl
      cases hu
    obtain ⟨as, bs, hs, ha⟩ := List.eq_append_cons_of_mem hu
    -- the URI is cut at its first brace, and the rest of it is taken for part of the name
    have hlist : (Namespace.clark uri name).toList =
        '\x7b' :: (as ++ '\x7d' :: (bs ++ '\x7d' :: name.toList)) := by
      rw [Namespace.clark_of_uri he, hs, List.append_assoc, List.cons_append]
    rw [ofClark?_braced hlist ha (by simp)] at h
    cases h
    rw [String.toList_ofList] at hx
    exact absurd (List.mem_append_right _ List.mem_cons_self) (not_mem_of_isName hx (.inr rfl))
  · rw [ofClark?_clark hn hu] at h
    exact ⟨(Option.some.inj h).symm, hu⟩

/-- What is read is written as it was, unless the braces hold nothing. -/
theorem eq_of_ofClark? {x : ExpandedName} (h : ofClark? s = some x) :
    s = x.clark ∨ x.uri = "" ∧ s.toList = '\x7b' :: '\x7d' :: x.localName.toList := by
  unfold ofClark? at h
  split at h
  · next rest hs =>
    have hsplit := List.takeWhile_append_dropWhile (p := (· != '\x7d')) (l := rest)
    have hhead := List.head?_dropWhile_not (· != '\x7d') rest
    cases hd : rest.dropWhile (· != '\x7d') with
    | nil =>
      rw [hd] at h
      cases h
    | cons c bs =>
      rw [hd] at h hsplit hhead
      obtain rfl : c = '\x7d' := by simpa using hhead
      dsimp only at h
      generalize rest.takeWhile (· != '\x7d') = as at h hsplit
      subst hsplit
      obtain ⟨-, hx⟩ := Option.ite_none_left_eq_some.1 h
      cases hx
      rw [String.toList_ofList]
      cases as with
      | nil => exact .inr ⟨rfl, hs⟩
      | cons a as =>
        refine .inl (String.toList_inj.1 ?_)
        rw [clark, Namespace.clark_of_uri, String.toList_ofList, String.toList_ofList, hs]
        intro he
        have hlist := congrArg String.toList he
        rw [String.toList_ofList] at hlist
        cases hlist
  · obtain ⟨-, hx⟩ := Option.ite_none_left_eq_some.1 h
    cases hx
    exact .inl (Namespace.clark_empty s).symm

/-- Only a name in no namespace that begins with braces that hold nothing is read otherwise than it
is written. -/
theorem eq_or_braces {x : ExpandedName} (h : ofClark? (Namespace.clark uri name) = some x)
    (hx : isName x.localName.toList = true) :
    Namespace.clark uri name = x.clark ∨ uri = "" ∧ name = "\x7b\x7d" ++ x.clark := by
  rcases eq_of_ofClark? h with he | ⟨hu, hs⟩
  · exact .inl he
  · by_cases huri : uri = ""
    · subst huri
      rw [Namespace.clark_empty] at hs
      rw [clark, hu, Namespace.clark_empty]
      refine .inr ⟨rfl, String.toList_inj.1 ?_⟩
      rw [hs, String.toList_append]
      rfl
    · rw [Namespace.clark_of_uri huri, List.cons.injEq] at hs
      -- the rest of the URI and the brace after it would be part of the local name
      have hmem : '\x7d' ∈ x.localName.toList := by
        cases hl : uri.toList with
        | nil => exact absurd (String.toList_eq_nil_iff.1 hl) huri
        | cons c cs =>
          rw [hl, List.cons_append, List.cons.injEq] at hs
          rw [← hs.2.2]
          exact List.mem_append_right _ List.mem_cons_self
      exact absurd hmem (not_mem_of_isName hx (.inr rfl))

end ExpandedName

end TreeQuery
