import Mathlib
import TreeQuery.XPath.Evaluate

/-!
# Whole numbers

A whole number below `2 ^ 53` is a number of expressions: it is what its numeral is read as
(`numeralValue_toString`), and it is equal to no other whole number, however large
(`ofNat_beq_ofNat`). So a numeral in a predicate keeps the node at its position alone.
-/

namespace TreeQuery.XPath

open Float.Model Float.Model.UnpackedFloat

variable {n a b m k s : Nat} {e : Int}

/-! ## Bits -/

theorem log2_mul_two_pow (hn : n ≠ 0) (s : Nat) : (n * 2 ^ s).log2 = n.log2 + s := by
  have hpos : 0 < 2 ^ s := Nat.two_pow_pos s
  rw [Nat.log2_eq_iff (Nat.mul_ne_zero hn hpos.ne')]
  constructor
  · rw [Nat.pow_add]
    exact Nat.mul_le_mul_right _ (Nat.log2_self_le hn)
  · rw [Nat.add_right_comm, Nat.pow_add]
    exact Nat.mul_lt_mul_of_pos_right Nat.lt_log2_self hpos

theorem log2_div_two_pow (h : 52 ≤ m.log2) : (m / 2 ^ (m.log2 - 52)).log2 = 52 := by
  have hm : m ≠ 0 := by
    rintro rfl
    rw [Nat.log2_zero] at h
    omega
  have hpos : 0 < 2 ^ (m.log2 - 52) := Nat.two_pow_pos _
  have hlow : 2 ^ 52 ≤ m / 2 ^ (m.log2 - 52) := by
    rw [Nat.le_div_iff_mul_le hpos, ← Nat.pow_add, Nat.add_sub_cancel' h]
    exact Nat.log2_self_le hm
  rw [Nat.log2_eq_iff (by omega)]
  refine ⟨hlow, ?_⟩
  rw [Nat.div_lt_iff_lt_mul hpos, ← Nat.pow_add, show 52 + 1 + (m.log2 - 52) = m.log2 + 1 by omega]
  exact Nat.lt_log2_self

theorem log2_le (h : n < 2 ^ 53) : n.log2 ≤ 52 := by
  by_cases hn : n = 0
  · subst hn
    exact Nat.zero_le 52
  · exact Nat.le_of_lt_succ ((Nat.log2_lt hn).2 h)

/-! ## Representations -/

theorem unpack_packComponents {x : Nat} (hm : 0 < m) (hlow : 2 ^ 52 ≤ m) (hhigh : m < 2 ^ 53)
    (hx : 0 < x) (hx' : x < 2047) :
    UnpackedFloat.unpack Format.binary64
      (packComponents Format.binary64 .positive (BitVec.ofNat 11 x) (BitVec.ofNat 52 m)) =
        .finite .positive m (x - 1075) hm := by
  have hexponent : (BitVec.ofNat 11 x).toNat = x := by
    rw [BitVec.toNat_ofNat]
    exact Nat.mod_eq_of_lt (by omega)
  have hne {y : BitVec 11} (hy : x ≠ y.toNat) : BitVec.ofNat 11 x ≠ y := by
    rintro rfl
    exact hy hexponent.symm
  have hmantissa : (1#1 ++ BitVec.ofNat 52 m).toNat = m := by
    rw [BitVec.toNat_append, ← Nat.shiftLeft_add_eq_or_of_lt (BitVec.isLt _), BitVec.toNat_ofNat]
    show 1 <<< 52 + m % 2 ^ 52 = m
    omega
  have hmax : BitVec.ofNat 11 x ≠ -1#11 := hne (show x ≠ 2047 by omega)
  have hmin : BitVec.ofNat 11 x ≠ 0#11 := hne (show x ≠ 0 by omega)
  rw [UnpackedFloat.unpack]
  simp only [unpackExponent_packComponents, unpackMantissa_packComponents,
    unpackSign_packComponents]
  rw [if_neg hmax, if_neg hmin]
  simp only [hmantissa, hexponent]
  rfl

/-- What has as many bits as a mantissa is kept, unless it is too large to be finite. -/
theorem unpack_pack (hm : 0 < m) (hlog : m.log2 = 52) (he : -1074 ≤ e) :
    (Float.Model.pack (.finite .positive m e hm)).unpack =
      if e ≤ 971 then .finite .positive m e hm else .infinity .positive := by
  obtain ⟨hlow, hhigh⟩ := (Nat.log2_eq_iff hm.ne').1 hlog
  have hbits : m.log2 + 1 = Format.binary64.mantissaBits := by
    rw [hlog]
    rfl
  obtain ⟨x, hx⟩ : ∃ x, (e + Format.binary64.exponentBias + (52 : Nat)).toNat = x := ⟨_, rfl⟩
  have hx' : (e + 1023 + 52).toNat = x := hx
  show UnpackedFloat.unpack _ (UnpackedFloat.pack _ _) = _
  rw [UnpackedFloat.pack]
  dsimp only
  rw [if_pos hbits, hx]
  by_cases h : e ≤ 971
  · rw [if_pos h, if_neg (by omega), unpack_packComponents hm hlow hhigh (by omega) (by omega)]
    congr 1
    omega
  · rw [if_neg h, if_pos (by omega)]
    rfl

/-! ## Rounding -/

theorem targetExponent_binary64 (t : Int) :
    Format.binary64.targetExponent t = max (t - 53) (-1074) := rfl

theorem mantissa_shiftRight (em : ExtendedMantissa) (k : Nat) :
    (em >>> k).mantissa = em.mantissa / 2 ^ k := by
  show (k.repeat ExtendedMantissa.shiftRightOne em).mantissa = _
  induction k with
  | zero => exact (Nat.div_one _).symm
  | succ k ih =>
    show (k.repeat ExtendedMantissa.shiftRightOne em).mantissa / 2 = _
    rw [ih, Nat.div_div_eq_div_mul, Nat.pow_succ]

theorem shiftRight_mul_two_pow (m k : Nat) :
    (⟨m * 2 ^ k, false, false⟩ : ExtendedMantissa) >>> k = ⟨m, false, false⟩ := by
  show k.repeat ExtendedMantissa.shiftRightOne _ = _
  induction k generalizing m with
  | zero => simp [Nat.repeat]
  | succ k ih =>
    rw [Nat.repeat, Nat.pow_succ', ← Nat.mul_assoc, ih]
    simp [ExtendedMantissa.shiftRightOne]

theorem le_roundedMantissa (em : ExtendedMantissa) : em.mantissa ≤ em.roundedMantissa := by
  obtain ⟨m, round, sticky⟩ := em
  cases round <;> cases sticky <;>
    simp [ExtendedMantissa.roundedMantissa, ExtendedMantissa.accuracy,
      Accuracy.roundToNearestEven]

theorem shiftToTargetExponent_of_le (hlog : 52 ≤ m.log2) (he : -1074 ≤ m.log2 - 52 + e) :
    (shiftToTargetExponent Format.binary64 m e .exact).1.mantissa = m / 2 ^ (m.log2 - 52) ∧
      (shiftToTargetExponent Format.binary64 m e .exact).2 = m.log2 - 52 + e := by
  have hk : (Format.binary64.targetExponent (totalExponent m e) - e).toNat = m.log2 - 52 := by
    rw [targetExponent_binary64, totalExponent]
    omega
  rw [shiftToTargetExponent, shiftToExponent, hk]
  exact ⟨mantissa_shiftRight _ _, by omega⟩

/-- What has too many bits is rounded to a number with a larger exponent. -/
theorem roundWithAccuracy_large (hlog : 52 ≤ m.log2) (he : 1 ≤ m.log2 - 52 + e) :
    ∃ r x hr, roundWithAccuracy Format.binary64 .positive m e .exact = .finite .positive r x hr ∧
      r.log2 = 52 ∧ 1 ≤ x := by
  obtain ⟨hmantissa, hexponent⟩ := shiftToTargetExponent_of_le hlog (show -1074 ≤ _ + e by omega)
  obtain ⟨⟨em, x⟩, hfirst⟩ :
    ∃ first, shiftToTargetExponent Format.binary64 m e .exact = first := ⟨_, rfl⟩
  rw [hfirst] at hmantissa hexponent
  dsimp only at hmantissa hexponent
  have hr : 52 ≤ em.roundedMantissa.log2 := by
    rw [← log2_div_two_pow hlog, ← hmantissa, Nat.log2_eq_log_two, Nat.log2_eq_log_two]
    exact Nat.log_mono_right (le_roundedMantissa em)
  -- rounding may have made one bit more, so it is shifted a second time
  obtain ⟨hmantissa', hexponent'⟩ := shiftToTargetExponent_of_le hr (show -1074 ≤ _ + x by omega)
  have hlog' := log2_div_two_pow hr
  rw [← hmantissa'] at hlog'
  have hne : (shiftToTargetExponent Format.binary64 em.roundedMantissa x .exact).1.mantissa ≠ 0 :=
    fun h => by
      rw [h] at hlog'
      cases hlog'
  refine ⟨_, (shiftToTargetExponent Format.binary64 em.roundedMantissa x .exact).2,
    Nat.pos_of_ne_zero hne, ?_, hlog', by omega⟩
  rw [roundWithAccuracy, hfirst]
  exact dif_neg hne

/-! ## Whole numbers as they are represented -/

/-- How many bits of a mantissa a number leaves over. -/
def spareBits (n : Nat) : Nat := 52 - n.log2

/-- A whole number with the bits of its mantissa filled up. -/
def whole (n : Nat) : UnpackedFloat :=
  if hn : n = 0 then .zero .positive
  else .finite .positive (n * 2 ^ spareBits n) (-spareBits n)
    (Nat.mul_pos (Nat.pos_of_ne_zero hn) (Nat.two_pow_pos _))

theorem whole_of_ne_zero (hn : n ≠ 0) : whole n =
    .finite .positive (n * 2 ^ spareBits n) (-spareBits n)
      (Nat.mul_pos (Nat.pos_of_ne_zero hn) (Nat.two_pow_pos _)) :=
  dif_neg hn

theorem unpack_pack_whole (h : n < 2 ^ 53) : (Float.Model.pack (whole n)).unpack = whole n := by
  by_cases hn : n = 0
  · subst hn
    rfl
  · have hlog := log2_le h
    have hbits : (n * 2 ^ spareBits n).log2 = 52 := by
      rw [log2_mul_two_pow hn, spareBits]
      omega
    have hexponent : -1074 ≤ (-spareBits n : Int) := by
      rw [spareBits]
      omega
    rw [whole_of_ne_zero hn, unpack_pack _ hbits hexponent, if_pos (by omega)]

theorem shiftToTargetExponent_whole (hn : n ≠ 0) (h : n < 2 ^ 53) (hs : spareBits n ≤ s) :
    shiftToTargetExponent Format.binary64 (n * 2 ^ s) (-s) .exact =
      (⟨n * 2 ^ spareBits n, false, false⟩, -(spareBits n : Int)) := by
  obtain ⟨k, rfl⟩ := Nat.exists_eq_add_of_le hs
  have hk : (Format.binary64.targetExponent (totalExponent (n * 2 ^ (spareBits n + k))
      (-(spareBits n + k : Nat))) - -(spareBits n + k : Nat)).toNat = k := by
    have hlog := log2_le h
    rw [targetExponent_binary64, totalExponent, log2_mul_two_pow hn, spareBits]
    omega
  rw [shiftToTargetExponent, shiftToExponent, hk, Nat.pow_add, ← Nat.mul_assoc]
  refine Prod.ext (shiftRight_mul_two_pow _ _) ?_
  dsimp only
  omega

theorem roundWithAccuracy_whole (hn : n ≠ 0) (h : n < 2 ^ 53) (hs : spareBits n ≤ s) :
    roundWithAccuracy Format.binary64 .positive (n * 2 ^ s) (-s) .exact = whole n := by
  have hne : n * 2 ^ spareBits n ≠ 0 := Nat.mul_ne_zero hn (Nat.two_pow_pos _).ne'
  rw [roundWithAccuracy, shiftToTargetExponent_whole hn h hs]
  dsimp only [ExtendedMantissa.roundedMantissa, ExtendedMantissa.accuracy,
    Accuracy.roundToNearestEven]
  rw [shiftToTargetExponent_whole hn h le_rfl, whole_of_ne_zero hn]
  exact dif_neg hne

theorem normalize_whole (h : n < 2 ^ 53) (s : Nat) :
    UnpackedFloat.normalize Format.binary64 (n * 2 ^ s : Nat) (-s) .positive = whole n := by
  by_cases hn : n = 0
  · subst hn
    rw [Nat.zero_mul]
    rfl
  · have hpos : 0 < n * 2 ^ s := Nat.mul_pos (Nat.pos_of_ne_zero hn) (Nat.two_pow_pos s)
    have hsign : compare ((n * 2 ^ s : Nat) : Int) 0 = .gt := by
      rw [Int.compare_eq_gt]
      omega
    have hk : ((-s : Int) -
        Format.binary64.targetExponent (totalExponent (n * 2 ^ s) (-s))).toNat =
          spareBits n - s := by
      have hlog := log2_le h
      rw [targetExponent_binary64, totalExponent, log2_mul_two_pow hn, spareBits]
      omega
    have hround := roundWithAccuracy_whole hn h (s := s + (spareBits n - s)) (by omega)
    rw [UnpackedFloat.normalize, hsign]
    show UnpackedFloat.round _ _ (n * 2 ^ s) _ = _
    rw [UnpackedFloat.round, decreaseExponent]
    dsimp only
    rw [hk, Nat.shiftLeft_eq, Nat.mul_assoc, ← Nat.pow_add, ← hround]
    congr 1
    omega

/-! ## Arithmetic -/

theorem decreaseExponent_whole (n : Nat) {s t : Nat} (h : s ≤ t) :
    (decreaseExponent (n * 2 ^ s) (-s) (-t)).1 = n * 2 ^ t := by
  have hk : (-s - -t : Int).toNat = t - s := by omega
  rw [decreaseExponent, hk, Nat.shiftLeft_eq, Nat.mul_assoc, ← Nat.pow_add, Nat.add_sub_cancel' h]

theorem add_whole (h : a + b < 2 ^ 53) :
    UnpackedFloat.add Format.binary64 (whole a) (whole b) = whole (a + b) := by
  by_cases ha : a = 0
  · subst ha
    rw [Nat.zero_add]
    by_cases hb : b = 0
    · subst hb
      rfl
    · rw [whole_of_ne_zero hb]
      rfl
  by_cases hb : b = 0
  · subst hb
    rw [Nat.add_zero, whole_of_ne_zero ha]
    rfl
  have hmin : min (-spareBits a : Int) (-spareBits b) =
      -(max (spareBits a) (spareBits b) : Nat) := by
    omega
  have hsum := normalize_whole h (max (spareBits a) (spareBits b))
  rw [Nat.add_mul] at hsum
  rw [whole_of_ne_zero ha, whole_of_ne_zero hb, UnpackedFloat.add]
  dsimp only
  rw [hmin, decreaseExponent_whole a (le_max_left _ _), decreaseExponent_whole b (le_max_right _ _)]
  exact hsum

theorem mul_whole (h : a * b < 2 ^ 53) :
    UnpackedFloat.mul Format.binary64 (whole a) (whole b) = whole (a * b) := by
  by_cases ha : a = 0
  · subst ha
    rw [Nat.zero_mul]
    by_cases hb : b = 0
    · subst hb
      rfl
    · rw [whole_of_ne_zero hb]
      rfl
  by_cases hb : b = 0
  · subst hb
    rw [Nat.mul_zero, whole_of_ne_zero ha]
    rfl
  have hlog : a.log2 ≤ (a * b).log2 := by
    rw [Nat.log2_eq_log_two, Nat.log2_eq_log_two]
    exact Nat.log_mono_right (Nat.le_mul_of_pos_right a (Nat.pos_of_ne_zero hb))
  have hspare : spareBits (a * b) ≤ spareBits a + spareBits b := by
    unfold spareBits
    omega
  rw [← roundWithAccuracy_whole (Nat.mul_ne_zero ha hb) h hspare, whole_of_ne_zero ha,
    whole_of_ne_zero hb, UnpackedFloat.mul, Nat.mul_mul_mul_comm, ← Nat.pow_add]
  congr 1
  omega

theorem ofNat_eq (h : n < 2 ^ 53) : Float.ofNat n = .ofModel (.pack (whole n)) := by
  have hwhole : Float.Model.ofUInt64 n.toUInt64 = .pack (whole n) := by
    have hn : n.toUInt64.toNat = n := by
      rw [Nat.toUInt64, UInt64.toNat_ofNat']
      exact Nat.mod_eq_of_lt (by omega)
    have hnormal := normalize_whole h 0
    rw [Nat.pow_zero, Nat.mul_one] at hnormal
    show Float.Model.pack (UnpackedFloat.ofNat _ n.toUInt64.toNat) = _
    rw [hn, ← hnormal]
    rfl
  have hone : (Float.ofBits 0x3FF0000000000000).toModel = .pack (whole 1) := by
    decide +kernel
  show Float.ofScientific n false 0 = _
  rw [Float.ofScientific, dif_pos ⟨h, by decide⟩]
  show Float.ofModel (Float.Model.ofUInt64 n.toUInt64 *
    (Float.ofBits 0x3FF0000000000000).toModel) = _
  rw [hwhole, hone]
  show Float.ofModel
    (.pack (UnpackedFloat.mul _ (Float.Model.pack _).unpack (Float.Model.pack _).unpack)) = _
  rw [unpack_pack_whole h, unpack_pack_whole (by decide), mul_whole (by omega), Nat.mul_one]

theorem ofNat_add (h : a + b < 2 ^ 53) : Float.ofNat a + Float.ofNat b = Float.ofNat (a + b) := by
  rw [ofNat_eq (by omega), ofNat_eq (by omega), ofNat_eq h, ← add_whole h]
  show Float.ofModel
    (.pack (UnpackedFloat.add _ (Float.Model.pack _).unpack (Float.Model.pack _).unpack)) = _
  rw [unpack_pack_whole (by omega), unpack_pack_whole (by omega)]

theorem ofNat_mul (ha : a < 2 ^ 53) (hb : b < 2 ^ 53) (h : a * b < 2 ^ 53) :
    Float.ofNat a * Float.ofNat b = Float.ofNat (a * b) := by
  rw [ofNat_eq ha, ofNat_eq hb, ofNat_eq h, ← mul_whole h]
  show Float.ofModel
    (.pack (UnpackedFloat.mul _ (Float.Model.pack _).unpack (Float.Model.pack _).unpack)) = _
  rw [unpack_pack_whole ha, unpack_pack_whole hb]

/-! ## Comparison -/

theorem compare_whole : (whole a).compare (whole b) = some .eq ↔ a = b := by
  by_cases ha : a = 0
  · subst ha
    by_cases hb : b = 0
    · subst hb
      exact iff_of_true rfl rfl
    · rw [whole_of_ne_zero hb]
      exact iff_of_false nofun (Ne.symm hb)
  by_cases hb : b = 0
  · subst hb
    rw [whole_of_ne_zero ha]
    exact iff_of_false nofun ha
  rw [whole_of_ne_zero ha, whole_of_ne_zero hb]
  show some _ = some _ ↔ _
  rw [Option.some_inj, Ordering.then_eq_eq, Int.compare_eq_eq, Nat.compare_eq_eq]
  constructor
  · rintro ⟨hexponent, hmantissa⟩
    have hs : spareBits a = spareBits b := by omega
    rw [hs] at hmantissa
    exact Nat.eq_of_mul_eq_mul_right (Nat.two_pow_pos _) hmantissa
  · rintro rfl
    exact ⟨rfl, rfl⟩

/-- From `2 ^ 53` on whole numbers are too large for whole numbers below. -/
theorem compare_whole_of_le (h : 2 ^ 53 ≤ b) :
    (whole a).compare (Float.ofNat b).toModel.unpack = some .lt := by
  have hb : b ≠ 0 := by omega
  have hlog : 53 ≤ b.log2 := (Nat.le_log2 hb).2 h
  have hshift : (b <<< 53).log2 = b.log2 + 53 := by
    rw [Nat.shiftLeft_eq, log2_mul_two_pow hb]
  obtain ⟨r, x, hr, hround, hr', hx⟩ :=
    roundWithAccuracy_large (show 52 ≤ (b <<< 53).log2 by omega) (show 1 ≤ _ + -53 by omega)
  have hmodel : (Float.ofNat b).toModel = .pack (.finite .positive r x hr) := by
    have hbits : (0 : Int) < 2 ^ Format.binary64.exponentBits := by decide
    have hone : b <<< Format.binary64.mantissaBits * 10 ^ Int.toNat 0 = b <<< 53 := Nat.mul_one _
    show (Float.ofScientific b false 0).toModel = _
    rw [Float.ofScientific, dif_neg (by omega)]
    show Float.Model.pack (UnpackedFloat.ofScientific _ b 0) = _
    rw [UnpackedFloat.ofScientific, dif_neg hb, if_neg (by omega), if_neg (by omega),
      if_pos (Int.le_refl 0), UnpackedFloat.mul, hone]
    exact congrArg _ hround
  rw [hmodel, unpack_pack hr hr' (by omega)]
  by_cases ha : a = 0
  · subst ha
    split <;> rfl
  · rw [whole_of_ne_zero ha]
    split
    · have hlt : compare (-spareBits a : Int) x = .lt := by
        rw [Int.compare_eq_lt]
        omega
      show some ((compare (-spareBits a : Int) x).then _) = _
      rw [hlt]
      rfl
    · rfl

/-- A whole number below `2 ^ 53` is equal to no other. -/
theorem ofNat_beq_ofNat (ha : a < 2 ^ 53) (b : Nat) :
    (Float.ofNat a == Float.ofNat b) = (a == b) := by
  have hbeq : (Float.ofNat a == Float.ofNat b) =
      ((whole a).compare (Float.ofNat b).toModel.unpack == some .eq) := by
    show ((Float.ofNat a).toModel.unpack.compare _ == _) = _
    rw [ofNat_eq ha]
    show ((Float.Model.pack _).unpack.compare _ == _) = _
    rw [unpack_pack_whole ha]
  rw [hbeq, Bool.eq_iff_iff, beq_iff_eq, beq_iff_eq]
  by_cases hb : b < 2 ^ 53
  · have hunpack : (Float.ofNat b).toModel.unpack = whole b := by
      rw [ofNat_eq hb]
      exact unpack_pack_whole hb
    rw [hunpack]
    exact compare_whole
  · rw [compare_whole_of_le (Nat.le_of_not_lt hb)]
    exact iff_of_false nofun (by omega)

/-! ## Numerals -/

theorem toList_toString (n : Nat) : (toString n).toList = Nat.toDigits 10 n :=
  String.toList_ofList

theorem toList_toString_ne_nil (n : Nat) : (toString n).toList ≠ [] := by
  rw [toList_toString]
  exact Nat.toDigits_ne_nil

theorem isDigit_of_mem_toString {c : Char} (h : c ∈ (toString n).toList) : c.isDigit = true := by
  rw [toList_toString] at h
  exact Nat.isDigit_of_mem_toDigits (by decide) (by decide) h

theorem addDigit_digitChar (h : 10 * n + k < 2 ^ 53) (hk : k < 10) :
    addDigit (Float.ofNat n) k.digitChar = Float.ofNat (10 * n + k) := by
  have hten : (10.0 : Float) = Float.ofNat 10 := rfl
  have hdigit : k.digitChar.toNat - 48 = k := by
    have hall : ∀ k < 10, k.digitChar.toNat - 48 = k := by decide
    exact hall k hk
  rw [addDigit, hdigit, hten, ofNat_mul (by omega) (by decide) (by omega), ofNat_add (by omega),
    Nat.mul_comm]

theorem foldl_addDigit (h : n < 2 ^ 53) :
    (Nat.toDigits 10 n).foldl addDigit 0.0 = Float.ofNat n := by
  induction n using Nat.strongRecOn with
  | ind n ih =>
    by_cases hn : n < 10
    · rw [Nat.toDigits_of_lt_base hn, List.foldl_cons, List.foldl_nil]
      exact (addDigit_digitChar (n := 0) (by omega) hn).trans (by rw [Nat.mul_zero, Nat.zero_add])
    · rw [Nat.toDigits_of_base_le (by decide) (by omega), List.foldl_append,
        ih (n / 10) (by omega) (by omega), List.foldl_cons, List.foldl_nil,
        addDigit_digitChar (by omega) (by omega), Nat.div_add_mod]

/-- The numeral of a whole number below `2 ^ 53` is read as this number. -/
theorem numeralValue_toString (h : n < 2 ^ 53) : numeralValue (toString n) = Float.ofNat n := by
  have hdigit := fun c (hc : c ∈ (toString n).toList) => isDigit_of_mem_toString hc
  have hwhole : (toString n).toList.takeWhile Char.isDigit = (toString n).toList :=
    List.takeWhile_eq_self_iff.2 hdigit
  have hrest : (toString n).toList.dropWhile Char.isDigit = [] :=
    List.dropWhile_eq_nil_iff.2 hdigit
  have hne : (toString n).toList.isEmpty = false :=
    List.isEmpty_eq_false_iff.2 (toList_toString_ne_nil n)
  have hmantissa : readMantissa (toString n).toList = some (Float.ofNat n, []) := by
    unfold readMantissa
    rw [hwhole, hrest]
    dsimp only
    rw [hne, toList_toString, foldl_addDigit h]
    rfl
  rw [numeralValue, hmantissa]
  rfl

theorem keepsPosition_toString (h : n < 2 ^ 53) (position : Nat) :
    keepsPosition (.number (numeralValue (toString n))) position = (n == position) := by
  rw [numeralValue_toString h]
  exact ofNat_beq_ofNat h position

end TreeQuery.XPath
