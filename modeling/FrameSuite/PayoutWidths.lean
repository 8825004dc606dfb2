import FrameSuite.SigmoidWidth

/-! A function put together from segments, for a 32-bit asset and for a 128-bit one, and the payouts that compute in
the signed workspace together. -/

namespace FrameSuite

open FixedNumber IntValue FixedKind

section Piecewise

/-- The same segment with 18 decimal places. -/
def Segment.rescale : Segment .fixedU64 → Segment .fixedU128
  | linear startX endX startY endY =>
    linear (FrameSuite.rescale startX) (FrameSuite.rescale endX) (FrameSuite.rescale startY) (FrameSuite.rescale endY)
  | curve startX endX params => curve (FrameSuite.rescale startX) (FrameSuite.rescale endX) params.rescale

/-- The same function with 18 decimal places. -/
def PiecewiseConfig.rescale (context : PiecewiseConfig .fixedU64) : PiecewiseConfig .fixedU128 :=
  ⟨context.segments.map Segment.rescale⟩

/-- A linear segment has moved by a unit at most, from an output that the narrow type pays. A curve has a level of
less than two units, is at its midpoint or does not grow, or is at one of its ends even for the narrow type. -/
def Segment.WidthSafe (x : FixedKind.fixedU64.Number) : Segment .fixedU64 → Prop
  | linear startX endX startY endY =>
    startX.inner = endX.inner ∧ startY.inner < (2 ^ 32 + 1) * 10 ^ 9 ∨
      startY.inner < 2 ^ 32 * 10 ^ 9 ∧
        (x.inner - startX.inner) * |endY.inner - startY.inner| ≤ 10 ^ 9 * (endX.inner - startX.inner)
  | curve _ _ params =>
    params.l.inner < 2 * 10 ^ 9 ∨ params.growth x = 0 ∧ params.l.inner < 2 * (2 ^ 32 + 1) * 10 ^ 9 ∨
      45 * 10 ^ 36 ≤ |params.growth x| ∧ params.l.inner < 2 ^ 32 * 10 ^ 9

/-- No segment contains the input, or the first one that does is safe. -/
def PiecewiseConfig.WidthSafe (context : PiecewiseConfig .fixedU64) (n : IntValue .u32) : Prop :=
  ∀ segment, SegmentAt (t := .u32) context segment n → segment.WidthSafe n.toFixed

variable {context : PiecewiseConfig .fixedU64} {n : IntValue .u32} {segment : Segment .fixedU64}

theorem Segment.contains_rescale (segment : Segment .fixedU64) (x : FixedKind.fixedU64.Number) :
    segment.rescale.contains (FrameSuite.rescale x) = segment.contains x := by
  have hcompare (a b : FixedKind.fixedU64.Number) :
      decide ((FrameSuite.rescale a).inner ≤ (FrameSuite.rescale b).inner) = decide (a.inner ≤ b.inner) := by
    rw [rescale_inner, rescale_inner, decide_eq_decide]
    omega
  cases segment <;> exact congrArg₂ (· && ·) (hcompare _ _) (hcompare _ _)

theorem find?_rescale (context : PiecewiseConfig .fixedU64) (n : IntValue .u32) :
    (context.rescale.segments.find? fun segment => segment.contains (widen n).toFixed) =
      (context.segments.find? fun segment => segment.contains n.toFixed).map Segment.rescale := by
  have hcontains : (fun segment : Segment .fixedU128 => segment.contains (widen n).toFixed) ∘ Segment.rescale =
      fun segment => segment.contains n.toFixed := by
    funext segment
    rw [Function.comp_apply, toFixed_widen]
    exact segment.contains_rescale n.toFixed
  rw [PiecewiseConfig.rescale, List.find?_map, hcontains]

theorem piecewisePayout_of_none {t : IntType} {context : PiecewiseConfig t.fixedPoint} {x : IntValue t}
    (h : context.segments.find? (fun segment => segment.contains x.toFixed) = none) :
    (piecewisePayout x context).value = 0 := by
  rw [piecewisePayout, h]
  rfl

theorem SegmentAt.payout {t : IntType} {context : PiecewiseConfig t.fixedPoint} {segment : Segment t.fixedPoint}
    {x : IntValue t} (h : SegmentAt context segment x) :
    piecewisePayout x context = fromFixed (segment.value x.toFixed) := by
  unfold SegmentAt at h
  rw [piecewisePayout, h]

/-- Both types find the same segment, or none. -/
theorem SegmentAt.rescale (h : SegmentAt (t := .u32) context segment n) :
    SegmentAt (t := .u128) context.rescale segment.rescale (widen n) := by
  have hsome := find?_rescale context n
  rw [show (context.segments.find? fun segment => segment.contains n.toFixed) = some segment from h] at hsome
  exact hsome

theorem piecewisePayout_unmatched (h : ∀ segment, ¬SegmentAt (t := .u32) context segment n) :
    (piecewisePayout n context).value = 0 ∧ (piecewisePayout (widen n) context.rescale).value = 0 := by
  have hnone : (context.segments.find? fun segment => segment.contains n.toFixed) = none :=
    Option.eq_none_iff_forall_ne_some.mpr h
  have hnone' := find?_rescale context n
  rw [hnone, Option.map_none] at hnone'
  exact ⟨piecewisePayout_of_none (t := .u32) hnone, piecewisePayout_of_none (t := .u128) hnone'⟩

theorem SegmentAt.value_u32 (h : SegmentAt (t := .u32) context segment n) :
    (piecewisePayout n context).value = min (2 ^ 32 - 1) ((segment.value n.toFixed).inner / 10 ^ 9) :=
  (congrArg IntValue.value h.payout).trans (fromFixed_u32 _)

theorem SegmentAt.value_u128 (h : SegmentAt (t := .u32) context segment n) :
    (piecewisePayout (widen n) context.rescale).value =
      (segment.rescale.value (FrameSuite.rescale n.toFixed)).inner / 10 ^ 18 := by
  have hpay := (congrArg IntValue.value h.rescale.payout).trans (fromFixed_u128 _)
  rw [toFixed_widen] at hpay
  exact hpay

theorem SegmentAt.between {t : IntType} {context : PiecewiseConfig t.fixedPoint} {segment : Segment t.fixedPoint}
    {x : IntValue t} (h : SegmentAt context segment x) :
    segment.startX.inner ≤ x.toFixed.inner ∧ x.toFixed.inner ≤ segment.endX.inner := by
  have hcontains := List.find?_some h
  rw [Segment.contains, Bool.and_eq_true, decide_eq_true_eq, decide_eq_true_eq] at hcontains
  exact hcontains

section Linear

variable {startX endX startY endY x : FixedKind.fixedU64.Number}

theorem linearValue_of_point {k : FixedKind} {startX endX startY endY x : k.Number} (h : startX.inner = endX.inner) :
    Segment.linearValue startX endX startY endY x = startY := by
  have hwidth : endX.saturatingSub startX = FixedNumber.zero := by
    refine FixedNumber.ext ?_
    have hmax := k.repr.one_le_max
    rw [saturatingSub_inner, h, sub_self, FixedNumber.clamp_of_mem k.repr.min_nonpos (by omega), zero_inner]
  rw [Segment.linearValue, if_pos hwidth]

/-- The narrow type takes its ratio over with nine decimal places. -/
theorem linearValue_u64 (startY endY : FixedKind.fixedU64.Number) (hlt : startX.inner < endX.inner)
    (hx : startX.inner ≤ x.inner) (hx' : x.inner ≤ endX.inner) :
    (Segment.linearValue startX endX startY endY x).inner =
      startY.inner + (linearRatio startX endX x * (endY.inner - startY.inner)).tdiv (10 ^ 18) := by
  have hnonneg (a : FixedKind.fixedU64.Number) : 0 ≤ a.inner := a.min_le
  have hle (a : FixedKind.fixedU64.Number) : a.inner ≤ 2 ^ 64 - 1 := a.le_max
  have hsX := hnonneg startX
  have heX := hle endX
  have hsY := hnonneg startY
  have hsY' := hle startY
  have heY := hnonneg endY
  have heY' := hle endY
  have hworkspace : (2 ^ 64 - 1 : Int) ≤ FixedKind.fixedU64.signed.repr.maxInner := by decide
  obtain ⟨hr0, hr1⟩ := linearRatio_bounds hlt hx hx'
  rw [linearValue_clamp (by decide) hlt (by change _ ≤ (2 ^ 64 - 1 : Int); omega) hx hx' ⟨hsY, by omega⟩
    ⟨heY, by omega⟩ (by decide)]
  have hpart := tdiv_part (d := endY.inner - startY.inner) (by decide : (0 : Int) < 10 ^ 18) hr0
    (hr1.trans (by decide))
  refine FixedNumber.clamp_of_mem ?_ ?_
  · change 0 ≤ startY.inner + (linearRatio startX endX x * (endY.inner - startY.inner)).tdiv (10 ^ 18)
    omega
  · change startY.inner + (linearRatio startX endX x * (endY.inner - startY.inner)).tdiv (10 ^ 18) ≤ 2 ^ 64 - 1
    omega

theorem linearRatio_rescale (startX endX x : FixedKind.fixedU64.Number) :
    linearRatio (FrameSuite.rescale startX) (FrameSuite.rescale endX) (FrameSuite.rescale x) =
      (x.inner - startX.inner) * 10 ^ 18 / (endX.inner - startX.inner) := by
  change (x.inner * 10 ^ 9 - startX.inner * 10 ^ 9) * 10 ^ 18 / (endX.inner * 10 ^ 9 - startX.inner * 10 ^ 9) = _
  rw [← Int.sub_mul, ← Int.sub_mul, Int.mul_right_comm, Int.mul_ediv_mul_of_pos_left _ _ (by decide)]

theorem linearValue_rescale (startY endY : FixedKind.fixedU64.Number) (hlt : startX.inner < endX.inner)
    (hx : startX.inner ≤ x.inner) (hx' : x.inner ≤ endX.inner) :
    (Segment.linearValue (FrameSuite.rescale startX) (FrameSuite.rescale endX) (FrameSuite.rescale startY)
        (FrameSuite.rescale endY) (FrameSuite.rescale x)).inner = startY.inner * 10 ^ 9 +
      ((x.inner - startX.inner) * 10 ^ 18 / (endX.inner - startX.inner) *
        ((endY.inner - startY.inner) * 10 ^ 9)).tdiv (10 ^ 18) := by
  have hsY' : startY.inner ≤ 2 ^ 64 - 1 := startY.le_max
  have heY' : endY.inner ≤ 2 ^ 64 - 1 := endY.le_max
  have hscale (a b : FixedKind.fixedU64.Number) (h : a.inner ≤ b.inner) :
      (FrameSuite.rescale a).inner ≤ (FrameSuite.rescale b).inner := by
    rw [rescale_inner, rescale_inner]
    omega
  rw [linearValue_of_u128 rfl (by rw [rescale_inner, rescale_inner]; omega) (hscale _ _ hx) (hscale _ _ hx')
    (by rw [rescale_inner]; omega) (by rw [rescale_inner]; omega), linearRatio_rescale, rescale_inner, rescale_inner,
    ← Int.sub_mul]
  rfl

/-- Both types interpolate by a ratio that is rounded down; the narrow one loses `10 ^ 9` of it in the workspace. -/
theorem linearValue_widths (startY endY : FixedKind.fixedU64.Number) (hlt : startX.inner < endX.inner)
    (hx : startX.inner ≤ x.inner) (hx' : x.inner ≤ endX.inner) : ∃ r R : Int,
      (0 ≤ r ∧ r * (endX.inner - startX.inner) ≤ (x.inner - startX.inner) * 10 ^ 9) ∧
      (0 ≤ R ∧ R * (endX.inner - startX.inner) ≤ (x.inner - startX.inner) * 10 ^ 18 ∧
        (x.inner - startX.inner) * 10 ^ 18 < (R + 1) * (endX.inner - startX.inner)) ∧
      (Segment.linearValue startX endX startY endY x).inner =
        startY.inner + (r * (endY.inner - startY.inner)).tdiv (10 ^ 18) ∧
      (Segment.linearValue (FrameSuite.rescale startX) (FrameSuite.rescale endX) (FrameSuite.rescale startY)
          (FrameSuite.rescale endY) (FrameSuite.rescale x)).inner =
        startY.inner * 10 ^ 9 + (R * ((endY.inner - startY.inner) * 10 ^ 9)).tdiv (10 ^ 18) := by
  have hw : 0 < endX.inner - startX.inner := by omega
  exact ⟨_, _, ⟨(linearRatio_bounds hlt hx hx').1, Int.ediv_mul_le _ hw.ne'⟩,
    ⟨Int.ediv_nonneg (by omega) hw.le, Int.ediv_mul_le _ hw.ne', Int.lt_ediv_add_one_mul_self _ hw⟩,
    linearValue_u64 startY endY hlt hx hx', linearValue_rescale startY endY hlt hx hx'⟩

theorem tdiv_within {p b : Int} (h : |p| ≤ b * 10 ^ 18) : |p.tdiv (10 ^ 18)| ≤ b := by
  rw [abs_tdiv_ediv p (by decide)]
  omega

/-- A rounded ratio times the difference, from what the ratio is at most. -/
theorem ratio_mul_le {ratio width moved d scale bound : Int} (hw : 0 < width) (hratio : 0 ≤ ratio)
    (hle : ratio * width ≤ moved * scale) (hscale : 0 ≤ scale) (hmoved : moved * |d| ≤ bound * width) :
    |ratio * d| ≤ bound * scale := by
  rw [abs_mul, abs_of_nonneg hratio]
  refine le_of_mul_le_mul_right ?_ hw
  calc ratio * |d| * width = ratio * width * |d| := by ring
    _ ≤ moved * scale * |d| := Int.mul_le_mul_of_nonneg_right hle (abs_nonneg d)
    _ = moved * |d| * scale := by ring
    _ ≤ bound * width * scale := Int.mul_le_mul_of_nonneg_right hmoved hscale
    _ = bound * scale * width := by ring

theorem linear_agree (hlt : startX.inner < endX.inner) (hx : startX.inner ≤ x.inner) (hx' : x.inner ≤ endX.inner)
    (hstart : startY.inner < 2 ^ 32 * 10 ^ 9)
    (hmoved : (x.inner - startX.inner) * |endY.inner - startY.inner| ≤ 10 ^ 9 * (endX.inner - startX.inner)) :
    |min (2 ^ 32 - 1) ((Segment.linearValue startX endX startY endY x).inner / 10 ^ 9) -
      (Segment.linearValue (FrameSuite.rescale startX) (FrameSuite.rescale endX) (FrameSuite.rescale startY)
        (FrameSuite.rescale endY) (FrameSuite.rescale x)).inner / 10 ^ 18| ≤ 1 := by
  obtain ⟨r, R, ⟨hr0, hr1⟩, ⟨hR0, hR1, -⟩, hnarrow, hwide⟩ := linearValue_widths startY endY hlt hx hx'
  have hw : 0 < endX.inner - startX.inner := by omega
  have hsmall : |r * (endY.inner - startY.inner)| ≤ 1 * 10 ^ 18 :=
    (ratio_mul_le hw hr0 hr1 (by decide) hmoved).trans (by decide)
  have hlarge : |R * ((endY.inner - startY.inner) * 10 ^ 9)| ≤ 10 ^ 18 * 10 ^ 18 := by
    have hle := ratio_mul_le hw hR0 hR1 (by decide) hmoved
    rw [← Int.mul_assoc, abs_mul, abs_of_nonneg (by decide : (0 : Int) ≤ 10 ^ 9)]
    omega
  have hn := abs_le.mp (tdiv_within hsmall)
  have hd := abs_le.mp (tdiv_within hlarge)
  rw [hnarrow, hwide, abs_le]
  -- Both values are on the same side of the start.
  rcases le_total 0 (endY.inner - startY.inner) with hup | hdown
  · have hn0 := Int.tdiv_nonneg (Int.mul_nonneg hr0 hup) (by decide : (0 : Int) ≤ 10 ^ 18)
    have hd0 := Int.tdiv_nonneg (Int.mul_nonneg hR0 (Int.mul_nonneg hup (by decide : (0 : Int) ≤ 10 ^ 9)))
      (by decide : (0 : Int) ≤ 10 ^ 18)
    omega
  · have hn0 : (r * (endY.inner - startY.inner)).tdiv (10 ^ 18) ≤ 0 := by
      rw [tdiv_of_nonpos (Int.mul_nonpos_of_nonneg_of_nonpos hr0 hdown)]
      have hnonpos := Int.mul_nonpos_of_nonneg_of_nonpos hr0 hdown
      omega
    have hd0 : (R * ((endY.inner - startY.inner) * 10 ^ 9)).tdiv (10 ^ 18) ≤ 0 := by
      have hnonpos := Int.mul_nonpos_of_nonneg_of_nonpos hR0 (by omega : (endY.inner - startY.inner) * 10 ^ 9 ≤ 0)
      rw [tdiv_of_nonpos hnonpos]
      omega
    omega

theorem linear_differ (hlt : startX.inner < endX.inner) (hx : startX.inner ≤ x.inner) (hx' : x.inner ≤ endX.inner)
    (hstart : startY.inner < 2 ^ 32 * 10 ^ 9) (hend : endY.inner < 2 ^ 32 * 10 ^ 9)
    (hmoved : 30 * 10 ^ 9 * (endX.inner - startX.inner) ≤ (x.inner - startX.inner) * |endY.inner - startY.inner|) :
    10 < |min (2 ^ 32 - 1) ((Segment.linearValue startX endX startY endY x).inner / 10 ^ 9) -
      (Segment.linearValue (FrameSuite.rescale startX) (FrameSuite.rescale endX) (FrameSuite.rescale startY)
        (FrameSuite.rescale endY) (FrameSuite.rescale x)).inner / 10 ^ 18| := by
  obtain ⟨r, R, ⟨hr0, hr1⟩, ⟨hR0, -, hR1⟩, hnarrow, hwide⟩ := linearValue_widths startY endY hlt hx hx'
  have hw : 0 < endX.inner - startX.inner := by omega
  have hsY : 0 ≤ startY.inner := startY.min_le
  have heY : 0 ≤ endY.inner := endY.min_le
  have hdiff : |endY.inner - startY.inner| ≤ 2 ^ 32 * 10 ^ 9 := by
    rw [abs_le]
    omega
  have hdiff0 := abs_nonneg (endY.inner - startY.inner)
  have hsmall : |r * (endY.inner - startY.inner)| ≤ 2 ^ 32 * 10 ^ 18 := by
    have hpart : (x.inner - startX.inner) * |endY.inner - startY.inner| ≤
        |endY.inner - startY.inner| * (endX.inner - startX.inner) := by
      rw [Int.mul_comm]
      exact Int.mul_le_mul_of_nonneg_left (by omega) hdiff0
    have hle := ratio_mul_le hw hr0 hr1 (by decide) hpart
    omega
  have hlarge : 30 * 10 ^ 27 ≤ (R + 1) * |endY.inner - startY.inner| := by
    refine le_of_mul_le_mul_right ?_ hw
    calc 30 * 10 ^ 27 * (endX.inner - startX.inner) = 30 * 10 ^ 9 * (endX.inner - startX.inner) * 10 ^ 18 := by ring
      _ ≤ (x.inner - startX.inner) * |endY.inner - startY.inner| * 10 ^ 18 :=
        Int.mul_le_mul_of_nonneg_right hmoved (by decide)
      _ = (x.inner - startX.inner) * 10 ^ 18 * |endY.inner - startY.inner| := by ring
      _ ≤ (R + 1) * (endX.inner - startX.inner) * |endY.inner - startY.inner| :=
        Int.mul_le_mul_of_nonneg_right hR1.le hdiff0
      _ = (R + 1) * |endY.inner - startY.inner| * (endX.inner - startX.inner) := by ring
  have hn := abs_le.mp (tdiv_within hsmall)
  have hd : 30 * 10 ^ 18 - 5 * 10 ^ 9 ≤ |(R * ((endY.inner - startY.inner) * 10 ^ 9)).tdiv (10 ^ 18)| := by
    rw [abs_tdiv_ediv _ (by decide), ← Int.mul_assoc, abs_mul, abs_mul, abs_of_nonneg hR0,
      abs_of_nonneg (by decide : (0 : Int) ≤ 10 ^ 9)]
    rw [Int.add_mul, Int.one_mul] at hlarge
    omega
  rw [hnarrow, hwide]
  generalize (r * (endY.inner - startY.inner)).tdiv (10 ^ 18) = narrow at *
  generalize (R * ((endY.inner - startY.inner) * 10 ^ 9)).tdiv (10 ^ 18) = wide at *
  rcases abs_cases wide with ⟨habs, hside⟩ | ⟨habs, hside⟩
  · rw [habs] at hd
    refine lt_of_lt_of_le ?_ (neg_le_abs _)
    omega
  · rw [habs] at hd
    refine lt_of_lt_of_le ?_ (le_abs_self _)
    omega

theorem linear_agree_of_point (heq : startX.inner = endX.inner) (hstart : startY.inner < (2 ^ 32 + 1) * 10 ^ 9) :
    |min (2 ^ 32 - 1) ((Segment.linearValue startX endX startY endY x).inner / 10 ^ 9) -
      (Segment.linearValue (FrameSuite.rescale startX) (FrameSuite.rescale endX) (FrameSuite.rescale startY)
        (FrameSuite.rescale endY) (FrameSuite.rescale x)).inner / 10 ^ 18| ≤ 1 := by
  have hstart0 : 0 ≤ startY.inner := startY.min_le
  rw [linearValue_of_point heq, linearValue_of_point (by rw [rescale_inner, rescale_inner, heq]), rescale_inner,
    abs_le]
  omega

end Linear

theorem curve_differ {params : CurveParams .fixedU64} {x : FixedKind.fixedU64.Number}
    (hlevel : 10 ^ 12 ≤ params.l.inner) (hlevel' : params.l.inner < 2 ^ 32 * 10 ^ 9)
    (hgrowth : 10 ^ 18 ≤ |params.growth x|) (hgrowth' : |params.growth x| ≤ 10 ^ 35) :
    10 < |min (2 ^ 32 - 1) ((params.evaluate x).inner / 10 ^ 9) -
      (params.rescale.evaluate (FrameSuite.rescale x)).inner / 10 ^ 18| := by
  have hdiffer := evaluate_differ hgrowth hgrowth' (by omega)
  obtain ⟨⟨hn0, hn1⟩, hw0, hw1⟩ := evaluate_bounds params x
  rcases abs_cases ((params.evaluate x).inner * 10 ^ 9 -
      (params.rescale.evaluate (FrameSuite.rescale x)).inner) with ⟨habs, -⟩ | ⟨habs, -⟩
  · rw [habs] at hdiffer
    refine lt_of_lt_of_le ?_ (le_abs_self _)
    omega
  · rw [habs] at hdiffer
    refine lt_of_lt_of_le ?_ (neg_le_abs _)
    omega

theorem Segment.agree_of_safe {x : FixedKind.fixedU64.Number} (hx : segment.startX.inner ≤ x.inner)
    (hx' : x.inner ≤ segment.endX.inner) (h : segment.WidthSafe x) :
    |min (2 ^ 32 - 1) ((segment.value x).inner / 10 ^ 9) -
      (segment.rescale.value (FrameSuite.rescale x)).inner / 10 ^ 18| ≤ 1 := by
  cases segment with
  | linear startX endX startY endY =>
    change startX.inner ≤ x.inner at hx
    change x.inner ≤ endX.inner at hx'
    rcases h with ⟨heq, hstart⟩ | ⟨hstart, hmoved⟩
    · exact linear_agree_of_point heq hstart
    · rcases (hx.trans hx').eq_or_lt with heq | hlt
      · exact linear_agree_of_point heq (by omega)
      · exact linear_agree hlt hx hx' hstart hmoved
  | curve startX endX params =>
    change |min (2 ^ 32 - 1) ((params.evaluate x).inner / 10 ^ 9) -
      (params.rescale.evaluate (FrameSuite.rescale x)).inner / 10 ^ 18| ≤ 1
    obtain ⟨⟨hn0, hn1⟩, hw0, hw1⟩ := evaluate_bounds params x
    rcases h with hlevel | ⟨hgrowth, hlevel⟩ | ⟨hends, hlevel⟩
    · rw [abs_le]
      omega
    · obtain ⟨hn, hw⟩ := evaluate_of_growth_zero hgrowth
      rw [hn, hw, abs_le]
      omega
    · have hnear := evaluate_near_of_saturated hends
      have hbounds := abs_le.mp (le_refl
        |(params.evaluate x).inner * 10 ^ 9 - (params.rescale.evaluate (FrameSuite.rescale x)).inner|)
      rw [abs_le]
      omega

theorem piecewisePayout_agree (h : context.WidthSafe n) :
    PayoutsAgree (piecewisePayout n context) (piecewisePayout (widen n) context.rescale) := by
  by_cases hunmatched : ∀ segment, ¬SegmentAt (t := .u32) context segment n
  · obtain ⟨hnarrow, hwide⟩ := piecewisePayout_unmatched hunmatched
    rw [PayoutsAgree, hnarrow, hwide]
    decide
  · obtain ⟨segment, hat⟩ := not_forall_not.mp hunmatched
    rw [PayoutsAgree, hat.value_u32, hat.value_u128]
    exact Segment.agree_of_safe hat.between.1 hat.between.2 (h segment hat)

/-- Where the segment is safe the payouts agree. A linear segment that has moved by thirty units has not moved on
the narrow type, and a curve of at least a thousand units does not see its growth there. -/
structure PiecewiseWidth (context : PiecewiseConfig .fixedU64) (n : IntValue .u32) : Prop where
  agree : context.WidthSafe n → PayoutsAgree (piecewisePayout n context) (piecewisePayout (widen n) context.rescale)
  linear : ∀ startX endX startY endY, SegmentAt (t := .u32) context (.linear startX endX startY endY) n →
    startX.inner < endX.inner → startY.inner < 2 ^ 32 * 10 ^ 9 → endY.inner < 2 ^ 32 * 10 ^ 9 →
      30 * 10 ^ 9 * (endX.inner - startX.inner) ≤
          (n.toFixed.inner - startX.inner) * |endY.inner - startY.inner| →
        10 < |(piecewisePayout n context).value - (piecewisePayout (widen n) context.rescale).value|
  curve : ∀ startX endX params, SegmentAt (t := .u32) context (.curve startX endX params) n →
    10 ^ 12 ≤ params.l.inner → params.l.inner < 2 ^ 32 * 10 ^ 9 → 10 ^ 18 ≤ |params.growth n.toFixed| →
      |params.growth n.toFixed| ≤ 10 ^ 35 →
        10 < |(piecewisePayout n context).value - (piecewisePayout (widen n) context.rescale).value|

theorem piecewiseWidth (context : PiecewiseConfig .fixedU64) (n : IntValue .u32) : PiecewiseWidth context n := by
  constructor
  case agree => exact piecewisePayout_agree
  case linear =>
    intro startX endX startY endY hat hlt hstart hend hmoved
    rw [hat.value_u32, hat.value_u128]
    exact linear_differ hlt hat.between.1 hat.between.2 hstart hend hmoved
  case curve =>
    intro startX endX params hat hlevel hlevel' hgrowth hgrowth'
    rw [hat.value_u32, hat.value_u128]
    exact curve_differ hlevel hlevel' hgrowth hgrowth'

end Piecewise

/-- The casts of the narrow type keep a value up to its last place exactly for the values of at most one place,
on the way back also where both types are at the bound. A payout does not depend on the width of its asset where
no larger value decides it: there is nothing to pay or no curve to follow, or even the narrow type has reached the
end of it. Away from there each of the models pays differently. -/
theorem signedWorkspace_width (x : FixedKind.fixedU64.Number) (n : IntValue .u32) (decay : ExpDecayPayoutConfig .u32)
    (sigmoid : SigmoidPayoutConfig .u32) (params : CurveParams .fixedU64) (piecewise : PiecewiseConfig .fixedU64) :
    ((IntoPreserves x ↔ x.inner ≤ 1) ∧
      (∀ y : FixedKind.fixedU64.signed.Number, 0 ≤ y.inner → y.inner ≤ (2 ^ 64 - 1) * 10 ^ 9 →
        (FromPreserves .fixedU64 y ↔ y.inner ≤ 1 ∨ (2 ^ 64 - 2) * 10 ^ 9 ≤ y.inner)) ∧
      ∀ (x : FixedKind.fixedU128.Number) (y : FixedKind.fixedU128.signed.Number), x.inner ≤ 2 ^ 127 - 1 →
        0 ≤ y.inner → (saturatedInto x).inner = x.inner ∧
          (saturatedFrom y : FixedKind.fixedU128.Number).inner = y.inner) ∧
    DecayWidth decay n ∧ SigmoidWidth sigmoid n ∧ CurveWidth params x ∧ PiecewiseWidth piecewise n :=
  ⟨⟨intoPreserves_u64_iff x, fromPreserves_u64_iff, preserves_u128⟩, decayWidth decay n, sigmoidWidth sigmoid n,
    curveWidth params x, piecewiseWidth piecewise n⟩

/-- The number 10 as a 32-bit input. -/
def tenU32 : IntValue .u32 := ⟨10, by decide, by decide⟩

/-- A decay of 1000 at the rate 0.1. -/
def decayOfThousand : ExpDecayPayoutConfig .u32 := ⟨⟨1000, by decide, by decide⟩, saturatingFromRational 1 10⟩

/-- A curve of 1000 from 0.1 to 0.9. -/
def riseToThousand : SigmoidPayoutConfig .u32 :=
  ⟨⟨1000, by decide, by decide⟩, saturatingFromRational 1 10, saturatingFromRational 9 10⟩

/-- A segment from 0 to 10, from 100 to the given output. -/
def segmentTo (endY : FixedKind.fixedU64.Number) : PiecewiseConfig .fixedU64 :=
  ⟨[.linear FixedNumber.zero (saturatingFromInteger 10) (saturatingFromInteger 100) endY]⟩

/-- The decay, both curves of 1000 and the segment to 200 differ at 10, and the segment to 101 does not. -/
theorem signedWorkspace_width_ten :
    (expDecayPayout (widen tenU32) decayOfThousand.rescale).value + 10 <
      (expDecayPayout tenU32 decayOfThousand).value ∧
    (sigmoidPayout tenU32 riseToThousand).value + 10 < (sigmoidPayout (widen tenU32) riseToThousand.rescale).value ∧
    10 ^ 8 * (saturatingFromInteger 1000 : FixedKind.fixedU64.Number).inner ≤
      |(CurveParams.evaluate ⟨saturatingFromInteger 1000, one, FixedNumber.zero⟩ tenU32.toFixed).inner * 10 ^ 9 -
        (CurveParams.evaluate (CurveParams.rescale ⟨saturatingFromInteger 1000, one, FixedNumber.zero⟩)
          (rescale tenU32.toFixed)).inner| ∧
    10 < |(piecewisePayout tenU32 (segmentTo (saturatingFromInteger 200))).value -
      (piecewisePayout (widen tenU32) (segmentTo (saturatingFromInteger 200)).rescale).value| ∧
    PayoutsAgree (piecewisePayout tenU32 (segmentTo (saturatingFromInteger 101)))
      (piecewisePayout (widen tenU32) (segmentTo (saturatingFromInteger 101)).rescale) := by
  obtain ⟨-, hdecay, hsigmoid, hcurve, hrising⟩ := signedWorkspace_width tenU32.toFixed tenU32 decayOfThousand
    riseToThousand ⟨saturatingFromInteger 1000, one, FixedNumber.zero⟩ (segmentTo (saturatingFromInteger 200))
  obtain ⟨-, -, -, -, hflat⟩ := signedWorkspace_width tenU32.toFixed tenU32 decayOfThousand
    riseToThousand ⟨saturatingFromInteger 1000, one, FixedNumber.zero⟩ (segmentTo (saturatingFromInteger 101))
  refine ⟨hdecay.differ (by decide) (by decide) (by decide),
    hsigmoid.differ ⟨by decide, by decide, by decide, by decide⟩ (by decide) (by decide),
    hcurve.differ (by decide) (by decide) (by decide),
    hrising.linear FixedNumber.zero (saturatingFromInteger 10) (saturatingFromInteger 100)
      (saturatingFromInteger 200) rfl (by decide) (by decide) (by decide) (by decide),
    hflat.agree ?_⟩
  intro segment hat
  cases hat
  exact .inr ⟨by decide, by decide⟩

/-- The same configurations with a 32-bit and a 128-bit asset: a decay of 1000 at the rate 0.1 after 10, a logistic
curve of 100 between 0.1 and 0.9 at 1, and the end of a curve and of a segment up to 100. -/
theorem payouts_depend_on_width :
    ((expDecayPayout (⟨10, by decide, by decide⟩ : IntValue .u32)
        ⟨⟨1000, by decide, by decide⟩, saturatingFromRational 1 10⟩).value = 2 ^ 32 - 1 ∧
      (expDecayPayout (⟨10, by decide, by decide⟩ : IntValue .u128)
        ⟨⟨1000, by decide, by decide⟩, saturatingFromRational 1 10⟩).value = 367) ∧
    ((sigmoidPayout (⟨1, by decide, by decide⟩ : IntValue .u32)
        ⟨⟨100, by decide, by decide⟩, saturatingFromRational 1 10, saturatingFromRational 9 10⟩).value = 0 ∧
      (sigmoidPayout (⟨1, by decide, by decide⟩ : IntValue .u128)
        ⟨⟨100, by decide, by decide⟩, saturatingFromRational 1 10, saturatingFromRational 9 10⟩).value = 89) ∧
    ((piecewisePayout (⟨100, by decide, by decide⟩ : IntValue .u32) ⟨[.curve FixedNumber.zero
        (saturatingFromInteger 100) ⟨saturatingFromInteger 100, one, saturatingFromInteger 50⟩]⟩).value = 50 ∧
      (piecewisePayout (⟨100, by decide, by decide⟩ : IntValue .u128) ⟨[.curve FixedNumber.zero
        (saturatingFromInteger 100) ⟨saturatingFromInteger 100, one, saturatingFromInteger 50⟩]⟩).value = 100) ∧
    ((piecewisePayout (⟨10, by decide, by decide⟩ : IntValue .u32) ⟨[.linear FixedNumber.zero
        (saturatingFromInteger 10) FixedNumber.zero (saturatingFromInteger 100)]⟩).value = 0 ∧
      (piecewisePayout (⟨10, by decide, by decide⟩ : IntValue .u128) ⟨[.linear FixedNumber.zero
        (saturatingFromInteger 10) FixedNumber.zero (saturatingFromInteger 100)]⟩).value = 100) ∧
    ¬IntoPreserves (one : FixedKind.fixedU64.Number) := by
  refine ⟨by decide +kernel, by decide +kernel, by decide +kernel, by decide +kernel, ?_⟩
  rw [intoPreserves_u64_iff]
  decide

end FrameSuite
