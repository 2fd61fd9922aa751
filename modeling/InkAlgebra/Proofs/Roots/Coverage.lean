import Mathlib
import InkAlgebra.Proofs.Roots.Bisection
import InkAlgebra.Proofs.Roots.Bracket
import InkAlgebra.Roots.Solve

/-!
# No root is missed

The line is divided into stretches on which the values rise or fall throughout, and each stretch is
searched by itself. That every root is reported near by is a matter of who reports it. A stretch
whose ends do not count as roots shows its root by a sign change and closes in on it. A root near
the lower end of a stretch is reported as that end. A root near the upper end is left to the next
stretch, for which that end is the lower one; at the far right, where no stretch may follow, the
last dividing point reports itself.

Every dividing point that counts as a root is reported. So it is enough that each root is reported
or has only values that count as zero between itself and a dividing point (§3). That the points
ascend is not asked, nor that the polynomial has any degree.

§1 is the stretches, §2 the search of one, §3 all stretches together.
-/

namespace InkAlgebra.Polynomial

open Exact

variable {K : Type} [Field K] [LinearOrder K] [FloorRing K]

/-! ## §1  Stretches -/

/-- Whether the values rise throughout a set, or fall. -/
def OneWay (p : Polynomial K) (stretch : Set K) : Prop :=
  MonotoneOn p.eval stretch ∨ AntitoneOn p.eval stretch

/-- Whether all values between two points count as zero. -/
def Reaches (p : Polynomial K) (ε z m : K) : Prop := ∀ x ∈ Set.uIcc z m, |p.eval x| ≤ ε

/-- Whether a root is reported near by: up to some distance from a point that it reaches. -/
def Reported (p : Polynomial K) (ε distance : K) (roots : List K) (z : K) : Prop :=
  ∃ r ∈ roots, ∃ m, |r - m| ≤ distance ∧ p.Reaches ε z m

variable {p : Polynomial K} {s : SolverSettings K} {stretch : Set K} {a b z ε distance : K}

theorem OneWay.mono {part : Set K} (h : p.OneWay stretch) (hpart : part ⊆ stretch) :
    p.OneWay part :=
  h.imp (fun hrise => hrise.mono hpart) (fun hfall => hfall.mono hpart)

/-- Between two points of a stretch the values lie between theirs. -/
theorem OneWay.eval_mem_uIcc (h : p.OneWay stretch) (hstretch : stretch.OrdConnected)
    (ha : a ∈ stretch) (hb : b ∈ stretch) (hz : z ∈ Set.uIcc a b) :
    p.eval z ∈ Set.uIcc (p.eval a) (p.eval b) := by
  rcases h.mono (hstretch.uIcc_subset ha hb) with hrise | hfall
  · exact hrise.mapsTo_uIcc hz
  · exact hfall.mapsTo_uIcc hz

/-- Whether values rise or fall throughout each of the stretches into which points divide the
line. -/
structure DividesLine (p : Polynomial K) (points : List K) : Prop where
  left : ∀ c ∈ points.head?, p.OneWay (Set.Iic c)
  between : points.IsChain fun a b => p.OneWay (Set.Icc a b)
  right : ∀ c ∈ points.getLast?, p.OneWay (Set.Ici c)
  whole : points = [] → p.OneWay Set.univ

theorem DividesLine.singleton_zero (h : p.DividesLine []) : p.DividesLine [0] where
  left c _ := (h.whole rfl).mono (Set.subset_univ _)
  between := List.isChain_singleton _
  right c _ := (h.whole rfl).mono (Set.subset_univ _)
  whole hnil := absurd hnil (by simp)

theorem Reported.mono {roots more : List K} (h : p.Reported ε distance roots z)
    (hsubset : roots ⊆ more) :
    p.Reported ε distance more z := by
  obtain ⟨r, hr, m, hm⟩ := h
  exact ⟨r, hsubset hr, m, hm⟩

variable [IsStrictOrderedRing K]

theorem OneWay.reaches (h : p.OneWay stretch) (hstretch : stretch.OrdConnected) (ha : a ∈ stretch)
    (hb : b ∈ stretch) (hpa : |p.eval a| ≤ ε) (hpb : |p.eval b| ≤ ε) : p.Reaches ε a b := by
  intro x hx
  obtain ⟨halow, hahigh⟩ := abs_le.1 hpa
  obtain ⟨hblow, hbhigh⟩ := abs_le.1 hpb
  rcases Set.mem_uIcc.1 (h.eval_mem_uIcc hstretch ha hb hx) with ⟨hlow, hhigh⟩ | ⟨hlow, hhigh⟩
  · exact abs_le.2 ⟨halow.trans hlow, hhigh.trans hbhigh⟩
  · exact abs_le.2 ⟨hblow.trans hlow, hhigh.trans hahigh⟩

/-- Around a root the signs differ. -/
theorem OneWay.mul_nonpos (h : p.OneWay stretch) (hstretch : stretch.OrdConnected)
    (ha : a ∈ stretch) (hb : b ∈ stretch) (hz : z ∈ Set.uIcc a b) (hroot : p.eval z = 0) :
    p.eval a * p.eval b ≤ 0 := by
  have hzero := h.eval_mem_uIcc hstretch ha hb hz
  rw [hroot] at hzero
  rcases Set.mem_uIcc.1 hzero with ⟨hlow, hhigh⟩ | ⟨hlow, hhigh⟩
  · exact mul_nonpos_of_nonpos_of_nonneg hlow hhigh
  · exact mul_nonpos_of_nonneg_of_nonpos hhigh hlow

/-- A point that is reported as it is reports every root that it is reached from. -/
theorem Reaches.reported {roots : List K} {m : K} (h : p.Reaches ε z m) (hm : m ∈ roots)
    (hdistance : 0 ≤ distance) : p.Reported ε distance roots z := by
  refine ⟨m, hm, m, ?_, h⟩
  rwa [sub_self, abs_zero]

/-! ## §2  One stretch -/

/-- **A stretch reports its root** or leaves it to the next one. -/
theorem OneWay.reported_of_finds (h : p.OneWay stretch) (hstretch : stretch.OrdConnected)
    (ha : a ∈ stretch) (hb : b ∈ stretch) (hz : z ∈ stretch) (hroot : p.eval z = 0)
    (hsign : p.eval a * p.eval b ≤ 0) {includeUpper : Bool} {found : Option K}
    (hfound : p.Finds s includeUpper a b found) (hε : 0 ≤ s.epsilon)
    (hround : s.halfUnit ≤ distance) :
    p.Reported s.epsilon distance found.toList z ∨ includeUpper = false ∧
        p.Reaches s.epsilon z b := by
  have hpz : |p.eval z| ≤ s.epsilon := by rwa [hroot, abs_zero]
  have hdistance : 0 ≤ distance := s.halfUnit_nonneg.trans hround
  cases hfound with
  | atLower hlower =>
      exact .inl ((h.reaches hstretch hz ha hpz hlower).reported (by simp) hdistance)
  | @atUpper digits hupper _ hdigits =>
      rw [SolverSettings.halfUnit_of_digits hdigits] at hround
      have hmoved := (p.abs_roundRoot_sub_le digits b).trans hround
      exact .inl ⟨_, by simp, b, hmoved, h.reaches hstretch hz hb hpz hupper⟩
  | leftToNext hupper hinclude =>
      exact .inr ⟨hinclude, h.reaches hstretch hz hb hpz hupper⟩
  | sameSign hsame => exact absurd hsame (not_lt_of_ge hsign)
  | @inside x digits hx hvalue hdigits =>
      have hxs : x ∈ stretch := hstretch.uIcc_subset ha hb hx
      rw [SolverSettings.halfUnit_of_digits hdigits] at hround
      have hmoved := (p.abs_roundRoot_sub_le digits x).trans hround
      exact .inl ⟨_, by simp, x, hmoved, h.reaches hstretch hz hxs hpz hvalue⟩

/-! ## §3  The line -/

theorem reported_of_rootsLeftOf {first : K} {roots : List K} (hε : 0 ≤ s.epsilon)
    (hround : s.halfUnit ≤ distance) (hway : p.OneWay (Set.Iic first))
    (h : p.rootsLeftOf s first = .ok roots) (hz : z ≤ first)
    (hroot : p.eval z = 0) :
    p.Reported s.epsilon distance roots z ∨ p.Reaches s.epsilon z first := by
  obtain ⟨bound, hbound, h⟩ := exists_of_bind_eq_ok h
  rcases lowerBound_cases (eq_ok_of_mapError hbound) with
    ⟨rfl, hsign | hfirst⟩ | ⟨low, rfl, hlow, hsign⟩
  · -- the sign at the first point is that far to the left, and a root would be between the two
    have hne : p.limitSign true ≠ 0 := left_ne_zero_of_mul hsign.ne'
    obtain ⟨far, hfar⟩ := exists_forall_limitSign_left hne
    have hpos : 0 < p.eval (min far z) * p.eval first :=
      mul_pos_of_mul_pos (hfar _ (min_le_left _ _)) (mul_comm (p.eval first) _ ▸ hsign)
    have hnonpos : p.eval (min far z) * p.eval first ≤ 0 :=
      hway.mul_nonpos Set.ordConnected_Iic ((min_le_right far z).trans hz) Set.self_mem_Iic
        (Set.mem_uIcc.2 (.inl ⟨min_le_right far z, hz⟩)) hroot
    exact absurd hpos (not_lt_of_ge hnonpos)
  · refine .inr (hway.reaches Set.ordConnected_Iic hz Set.self_mem_Iic ?_ ?_)
    · rwa [hroot, abs_zero]
    · rwa [hfirst, abs_zero]
  · obtain ⟨found, hfound, h⟩ := exists_of_bind_eq_ok h
    obtain rfl := Except.ok.inj h
    exact (hway.reported_of_finds Set.ordConnected_Iic hlow Set.self_mem_Iic hz hroot hsign
      (finds_of_findRoot hε hfound) hε hround).imp_right And.right

theorem reported_of_rootsBetween {rest roots : List K} (hε : 0 ≤ s.epsilon)
    (hround : s.halfUnit ≤ distance)
    (hway : (a :: rest).IsChain fun a b => p.OneWay (Set.Icc a b))
    (h : p.rootsBetween s (a :: rest) = .ok roots) (ha : a ≤ z)
    (hz : z ≤ (a :: rest).getLast (by simp)) (hroot : p.eval z = 0) :
    p.Reported s.epsilon distance roots z ∨ ∃ c ∈ a :: rest, p.Reaches s.epsilon z c := by
  induction rest generalizing a roots with
  | nil =>
      obtain rfl : z = a := le_antisymm hz ha
      refine .inr ⟨z, List.mem_cons_self, ?_⟩
      intro x hx
      obtain rfl : x = z := by simpa using hx
      rwa [hroot, abs_zero]
  | cons b rest ih =>
      obtain ⟨found, more, hfound, hmore, rfl⟩ := exists_of_rootsBetween_cons h
      obtain ⟨hfirst, hrest⟩ := List.isChain_cons_cons.1 hway
      rcases le_total z b with hzb | hbz
      · have hab : a ≤ b := ha.trans hzb
        have hsign : p.eval a * p.eval b ≤ 0 :=
          hfirst.mul_nonpos Set.ordConnected_Icc (Set.left_mem_Icc.2 hab) (Set.right_mem_Icc.2 hab)
            (Set.mem_uIcc.2 (.inl ⟨ha, hzb⟩)) hroot
        rcases hfirst.reported_of_finds Set.ordConnected_Icc (Set.left_mem_Icc.2 hab)
          (Set.right_mem_Icc.2 hab) ⟨ha, hzb⟩ hroot hsign
          (finds_of_findRoot hε hfound) hε hround with
          hreported | ⟨_, hreaches⟩
        · exact .inl (hreported.mono (List.subset_append_left _ _))
        · exact .inr ⟨b, by simp, hreaches⟩
      · rcases ih hrest hmore hbz (by simpa using hz) with hreported | ⟨c, hc, hreaches⟩
        · exact .inl (hreported.mono (List.subset_append_right _ _))
        · exact .inr ⟨c, List.mem_cons_of_mem _ hc, hreaches⟩

theorem reported_of_rootsFrom {last : K} {before after : List K} (hε : 0 ≤ s.epsilon)
    (hround : s.halfUnit ≤ distance)
    (hway : p.OneWay (Set.Ici last)) (h : p.rootsFrom s last before = .ok after) (hz : last ≤ z)
    (hroot : p.eval z = 0) : p.Reported s.epsilon distance after z := by
  obtain ⟨bound, hbound, h⟩ := exists_of_bind_eq_ok h
  rcases upperBound_cases (eq_ok_of_mapError hbound) with ⟨rfl, hsign⟩ | ⟨high, rfl, hhigh, hsign⟩
  · have hne : p.limitSign false ≠ 0 := left_ne_zero_of_mul hsign.ne'
    obtain ⟨far, hfar⟩ := exists_forall_limitSign_right hne
    have hpos : 0 < p.eval last * p.eval (max far z) :=
      mul_pos_of_mul_pos (mul_comm (p.eval last) _ ▸ hsign) (hfar _ (le_max_left _ _))
    have hnonpos : p.eval last * p.eval (max far z) ≤ 0 :=
      hway.mul_nonpos Set.ordConnected_Ici Set.self_mem_Ici (hz.trans (le_max_right far z))
        (Set.mem_uIcc.2 (.inl ⟨hz, le_max_right far z⟩)) hroot
    exact absurd hpos (not_lt_of_ge hnonpos)
  · obtain ⟨found, hfound, h⟩ := exists_of_bind_eq_ok h
    obtain rfl := Except.ok.inj h
    rcases hway.reported_of_finds Set.ordConnected_Ici Set.self_mem_Ici hhigh hz hroot hsign
      (finds_of_findRoot hε hfound) hε hround with hreported | ⟨hfalse, _⟩
    · exact hreported
    · cases hfalse

theorem DividesLine.reported_of_rootsFromCritical {rest roots : List K} (hε : 0 ≤ s.epsilon)
    (hround : s.halfUnit ≤ distance)
    (hdivides : p.DividesLine (a :: rest)) (h : p.rootsFromCritical (a :: rest) s = .ok roots)
    (hroot : p.eval z = 0) : p.Reported s.epsilon distance roots z := by
  have hlast : (a :: rest).getLast? = some ((a :: rest).getLast (by simp)) :=
    List.getLast?_eq_some_getLast _
  have hdistance : 0 ≤ distance := s.halfUnit_nonneg.trans hround
  -- a root that reaches a dividing point is reported by it
  have hpoint : ∀ c ∈ a :: rest, p.Reaches s.epsilon z c →
      p.Reported s.epsilon distance roots z := by
    intro c hc hreaches
    have hvalue : Scalar.abs (p.eval c) ≤ s.epsilon := by
      rw [scalarAbs_eq_abs]
      exact hreaches c Set.right_mem_uIcc
    obtain ⟨r, hr, rfl | heq⟩ := mem_rootsFromCritical h hc hvalue
    · exact hreaches.reported hr hdistance
    · obtain rfl := eq_of_beq heq
      exact hreaches.reported hr hdistance
  obtain ⟨left, hleft, h⟩ := exists_of_bind_eq_ok h
  obtain ⟨between, hbetween, h⟩ := exists_of_bind_eq_ok h
  obtain ⟨right, hright, h⟩ := exists_of_bind_eq_ok h
  obtain rfl := Except.ok.inj h
  rw [hlast] at hright
  rcases le_total z a with hza | haz
  · rcases reported_of_rootsLeftOf hε hround (hdivides.left a rfl) hleft hza hroot with
      hreported | hreaches
    · refine hreported.mono ?_
      rw [List.append_assoc]
      exact List.subset_append_left _ _
    · exact hpoint a List.mem_cons_self hreaches
  · rcases le_total ((a :: rest).getLast (by simp)) z with hlastz | hzlast
    · have hreported := reported_of_rootsFrom hε hround (hdivides.right _ hlast) hright hlastz hroot
      exact hreported.mono (List.subset_append_right _ _)
    · rcases reported_of_rootsBetween hε hround hdivides.between hbetween haz hzlast hroot with
        hreported | ⟨c, hc, hreaches⟩
      · refine hreported.mono ?_
        rw [List.append_assoc]
        exact List.Subset.trans (List.subset_append_left _ _) (List.subset_append_right _ _)
      · exact hpoint c hc hreaches

/-- **No root is missed.** Given points between which the values rise or fall throughout, every root
is reported up to rounding from a point that it reaches: one with only values between them that
count as zero. -/
theorem exists_root_reached {p : Polynomial K} {s : SolverSettings K} (hε : 0 < s.epsilon)
    {points roots : List K} (hdivides : p.DividesLine points)
    (h : p.rootsFromCritical points s = .ok roots) {z : K} (hroot : p.eval z = 0) :
    ∃ r ∈ roots, ∃ m, |r - m| ≤ s.halfUnit ∧ ∀ x ∈ Set.uIcc z m, |p.eval x| ≤ s.epsilon := by
  cases points with
  | nil =>
      rw [rootsFromCritical_nil] at h
      exact hdivides.singleton_zero.reported_of_rootsFromCritical hε.le le_rfl h hroot
  | cons a rest => exact hdivides.reported_of_rootsFromCritical hε.le le_rfl h hroot

/-- A cubic with an almost double root: the values do not get beyond what counts as zero between the
root `2.001` and the dividing point `2`. -/
def almostTouching : Polynomial ℚ := ofTerms [(0, 15999993999 / 1000000000), (1, -12), (3, 1)]

theorem eval_almostTouching (x : ℚ) :
    almostTouching.eval x = 15999993999 / 1000000000 - 12 * x + x ^ 3 := by
  rw [almostTouching, (denotes_ofTerms _).eval]
  simp
  ring

theorem dividesLine_almostTouching : almostTouching.DividesLine [-2, 2] := by
  refine ⟨?_, ?_, ?_, by simp⟩
  · rintro c ⟨rfl⟩
    refine .inl ?_
    intro x hx y hy hxy
    rw [Set.mem_Iic] at hx hy
    rw [eval_almostTouching, eval_almostTouching]
    nlinarith [mul_nonneg (sub_nonneg.2 hxy) (by nlinarith : (0 : ℚ) ≤ x ^ 2 + x * y + y ^ 2 - 12)]
  · refine List.isChain_pair.2 (.inr ?_)
    intro x hx y hy hxy
    rw [Set.mem_Icc] at hx hy
    rw [eval_almostTouching, eval_almostTouching]
    nlinarith [mul_nonneg (sub_nonneg.2 hxy) (by nlinarith : (0 : ℚ) ≤
      12 - (x ^ 2 + x * y + y ^ 2))]
  · intro c hc
    obtain rfl : 2 = c := by simpa using hc
    refine .inl ?_
    intro x hx y hy hxy
    rw [Set.mem_Ici] at hx hy
    rw [eval_almostTouching, eval_almostTouching]
    nlinarith [mul_nonneg (sub_nonneg.2 hxy) (by nlinarith : (0 : ℚ) ≤ x ^ 2 + x * y + y ^ 2 - 12)]

/-- The root `2.001` is reported as the dividing point `2`; the other one is closed in on. -/
theorem almostTouching_root_reached :
    (0 : ℚ) < SolverSettings.standard.epsilon ∧ almostTouching.DividesLine [-2, 2] ∧
      almostTouching.rootsFromCritical [-2, 2] .standard = .ok [-33554431 / 8388608, 2] ∧
      almostTouching.eval (2001 / 1000) = 0 ∧
      ∃ r ∈ [-33554431 / 8388608, (2 : ℚ)],
        ∃ m, |r - m| ≤ (SolverSettings.standard : SolverSettings ℚ).halfUnit ∧
          ∀ x ∈ Set.uIcc (2001 / 1000) m,
            |almostTouching.eval x| ≤ (SolverSettings.standard : SolverSettings ℚ).epsilon := by
  have hε : (0 : ℚ) < SolverSettings.standard.epsilon := by decide +kernel
  have hroots : almostTouching.rootsFromCritical [-2, 2] .standard =
      .ok [-33554431 / 8388608, 2] := by
    decide +kernel
  have hroot : almostTouching.eval (2001 / 1000) = 0 := by
    rw [eval_almostTouching]
    norm_num
  exact ⟨hε, dividesLine_almostTouching, hroots, hroot,
    exists_root_reached hε dividesLine_almostTouching hroots hroot⟩

end InkAlgebra.Polynomial
