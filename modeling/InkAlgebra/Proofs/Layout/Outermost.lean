import Mathlib
import InkAlgebra.Proofs.Layout.Depth
import InkAlgebra.Proofs.Layout.Ledger

/-!
# Which fractions are put together

Of the candidates of a row those are put together that lie inside no other one. Candidates are
struck out while the row of them is still being gone through, so one that strikes out another may be
struck out later, and of candidates which cover the same leaves the first has to stay. That all of
this comes to one candidate for each largest run is seen by a rank: a candidate is above another one
if it covers more, or covers the same and comes first. Ranks are a strict order, and what is left in
the end is what nothing is above.

§1 is ranks, §2 striking out, §3 taking candidates one at a time, §4 what is left, §5 the fractions
in a row of nodes, §6 the two together.
-/

namespace InkAlgebra

variable {κ : Type}

namespace Candidate

/-! ## §1  Ranks -/

/-- Whether a candidate, each with its place, is above another one. -/
def outranks (x y : Candidate κ × ℕ) : Bool :=
  y.1.span.isInside x.1.span && (y.1.span ≠ x.1.span || x.2 < y.2)

theorem outranks_iff {x y : Candidate κ × ℕ} :
    outranks x y = true ↔ y.1.span.isInside x.1.span = true ∧
        (y.1.span ≠ x.1.span ∨ x.2 < y.2) := by
  simp [outranks]

/-- In front of a candidate, to be above it is to cover it. -/
theorem outranks_iff_of_lt {x y : Candidate κ × ℕ} (h : x.2 < y.2) :
    outranks x y = true ↔ y.1.span.isInside x.1.span = true := by
  rw [outranks_iff]
  exact and_iff_left (.inr h)

instance isStrictOrder_outranks :
    IsStrictOrder (Candidate κ × ℕ) fun x y => outranks x y = true where
  irrefl x h := (outranks_iff.1 h).2.elim (fun hne => hne rfl) (lt_irrefl x.2)
  trans x y z hxy hyz := by
    obtain ⟨hyx, habove⟩ := outranks_iff.1 hxy
    obtain ⟨hzy, habove'⟩ := outranks_iff.1 hyz
    refine outranks_iff.2 ⟨Span.isInside_trans hzy hyx, ?_⟩
    by_cases hsame : z.1.span = x.1.span
    · -- then all three cover the same, and their places decide
      have hy : y.1.span = x.1.span := Span.isInside_antisymm hyx (hsame ▸ hzy)
      have hxy := habove.resolve_left fun hne => hne hy
      have hyz := habove'.resolve_left fun hne => hne (hsame.trans hy.symm)
      exact .inr (hxy.trans hyz)
    · exact .inl hsame

theorem not_outranks_self (x : Candidate κ × ℕ) : outranks x x = false :=
  Bool.eq_false_iff.2 (irrefl_of (fun x y : Candidate κ × ℕ => outranks x y = true) x)

theorem outranks_trans {x y z : Candidate κ × ℕ} (hxy : outranks x y = true)
    (hyz : outranks y z = true) :
    outranks x z = true :=
  trans_of (fun x y : Candidate κ × ℕ => outranks x y = true) hxy hyz

/-- The candidates of a row that none of some others is above. -/
def spared (others row : List (Candidate κ × ℕ)) : List (Candidate κ × ℕ) :=
  row.filter fun y => !others.any (outranks · y)

theorem mem_spared {others row : List (Candidate κ × ℕ)} {y : Candidate κ × ℕ} :
    y ∈ spared others row ↔ y ∈ row ∧ ∀ x ∈ others, outranks x y = false := by
  simp [spared]

/-- Every candidate of a row lies inside one that nothing is above. -/
theorem exists_mem_spared {row : List (Candidate κ × ℕ)} {y : Candidate κ × ℕ} (hy : y ∈ row) :
    ∃ x ∈ spared row row, y.1.span.isInside x.1.span = true := by
  have hfinite := row.finite_toSet.wellFoundedOn (r := fun x y => outranks x y = true)
  refine hfinite.induction (P := fun y => ∃ x ∈ spared row row, y.1.span.isInside x.1.span =
    true) hy fun y hy ih => ?_
  by_cases htop : ∀ x ∈ row, outranks x y = false
  · exact ⟨y, mem_spared.2 ⟨hy, htop⟩, Span.isInside_refl _⟩
  · push Not at htop
    obtain ⟨z, hz, hzy⟩ := htop
    obtain ⟨x, hx, hzx⟩ := ih z hz (Bool.of_not_eq_false hzy)
    exact ⟨x, hx, Span.isInside_trans (outranks_iff.1 (Bool.of_not_eq_false hzy)).1 hzx⟩

/-! ## §2  Striking out -/

/-- One candidate's turn: unless it has been struck out itself, it strikes out all others that lie
inside it. -/
def strikeOut (alive : List (Candidate κ × ℕ)) (x : Candidate κ × ℕ) : List (Candidate κ × ℕ) :=
  if alive.any (·.2 = x.2) then alive.filter fun y =>
    y.2 = x.2 || !y.1.span.isInside x.1.span else alive

/-- Every candidate gets its turn, from the first to the last. -/
def struckOut (candidates : List (Candidate κ)) : List (Candidate κ) :=
  (candidates.zipIdx.foldl strikeOut candidates.zipIdx).map (·.1)

/-- Whether candidates stand by their places. -/
def ByPlace (row : List (Candidate κ × ℕ)) : Prop := row.Pairwise fun x y => x.2 < y.2

theorem byPlace_zipIdx (candidates : List (Candidate κ)) : ByPlace candidates.zipIdx := by
  have hplaces : (candidates.zipIdx.map (·.2)).Pairwise (· < ·) := by
    rw [List.zipIdx_map_snd]
    exact List.pairwise_lt_range' ..
  exact List.pairwise_map.1 hplaces

theorem exists_mem_zipIdx {candidates : List (Candidate κ)} {c : Candidate κ} (h : c ∈ candidates) :
    ∃ i, (c, i) ∈ candidates.zipIdx := by
  obtain ⟨i, hi⟩ := List.mem_iff_getElem?.1 h
  exact ⟨i, List.mem_zipIdx_iff_getElem?.2 hi⟩

variable {done rest : List (Candidate κ × ℕ)} {x : Candidate κ × ℕ}

theorem ByPlace.cases (h : ByPlace (done ++ x :: rest)) {y : Candidate κ × ℕ}
    (hy : y ∈ done ++ x :: rest) :
    (y ∈ done ∧ y.2 < x.2) ∨ y = x ∨ x.2 < y.2 := by
  obtain ⟨_, hbehind, hbefore⟩ := List.pairwise_append.1 h
  rcases List.mem_append.1 hy with hy | hy
  · exact .inl ⟨hy, hbefore y hy x List.mem_cons_self⟩
  · rcases List.mem_cons.1 hy with rfl | hy
    · exact .inr (.inl rfl)
    · exact .inr (.inr (List.rel_of_pairwise_cons hbehind hy))

/-- After some turns those are left that none of the candidates which had their turn is above. -/
theorem strikeOut_spared (h : ByPlace (done ++ x :: rest)) :
    strikeOut (spared done (done ++ x :: rest)) x = spared (done ++ [x]) (done ++ x :: rest) := by
  have hself : ∀ y ∈ done ++ x :: rest, y.2 = x.2 → y = x := by
    intro y hy heq
    rcases h.cases hy with ⟨_, hlt⟩ | rfl | hlt
    · exact absurd heq hlt.ne
    · rfl
    · exact absurd heq hlt.ne'
  by_cases halive : ∀ p ∈ done, outranks p x = false
  · have hany : (spared done (done ++ x :: rest)).any (·.2 = x.2) = true :=
      List.any_eq_true.2 ⟨x, mem_spared.2 ⟨by simp, halive⟩, decide_eq_true rfl⟩
    rw [strikeOut, if_pos hany, spared, spared, List.filter_filter]
    refine List.filter_congr fun y hy => ?_
    have hstruck : (decide (y.2 = x.2) || !y.1.span.isInside x.1.span) = !outranks x y := by
      rcases h.cases hy with ⟨hdone, hlt⟩ | rfl | hlt
      · -- in front of it only what covers less lies inside it
        have hne : y.1.span.isInside x.1.span = true → y.1.span ≠ x.1.span := by
          intro hinside hsame
          refine Bool.eq_false_iff.1 (halive y hdone) ((outranks_iff_of_lt hlt).2 ?_)
          rw [hsame]
          exact Span.isInside_refl _
        rw [decide_eq_false hlt.ne, Bool.false_or, Bool.not_inj_iff, Bool.eq_iff_iff, outranks_iff]
        exact ⟨fun hinside => ⟨hinside, .inl (hne hinside)⟩, fun habove => habove.1⟩
      · simp [not_outranks_self]
      · rw [decide_eq_false hlt.ne', Bool.false_or, Bool.not_inj_iff, Bool.eq_iff_iff,
          outranks_iff_of_lt hlt]
    rw [hstruck, List.any_append, Bool.not_or, Bool.and_comm]
    simp
  · -- what it is above something is above that is above it
    push Not at halive
    obtain ⟨p, hp, hpx⟩ := halive
    have hpx := Bool.of_not_eq_false hpx
    have hany : (spared done (done ++ x :: rest)).any (·.2 = x.2) = false := by
      refine List.any_eq_false.2 fun y hy heq => ?_
      obtain ⟨hmem, hspared⟩ := mem_spared.1 hy
      obtain rfl := hself y hmem (of_decide_eq_true heq)
      exact Bool.eq_false_iff.1 (hspared p hp) hpx
    rw [strikeOut, hany, if_neg Bool.false_ne_true]
    refine List.filter_congr fun y _ => congrArg _ ?_
    rw [List.any_append, Bool.eq_iff_iff, Bool.or_eq_true]
    refine ⟨.inl, fun hor => hor.elim id fun hxy => ?_⟩
    have hxy : outranks x y = true := by simpa using hxy
    exact List.any_eq_true.2 ⟨p, hp, outranks_trans hpx hxy⟩

theorem foldl_strikeOut (h : ByPlace (done ++ rest)) :
    rest.foldl strikeOut (spared done (done ++ rest)) = spared (done ++ rest) (done ++ rest) := by
  induction rest generalizing done with
  | nil => rw [List.append_nil]; rfl
  | cons x rest ih =>
      have hsplit : done ++ x :: rest = done ++ [x] ++ rest := by simp
      rw [List.foldl_cons, strikeOut_spared h, hsplit]
      exact ih (hsplit ▸ h)

/-- **Striking out** leaves those that nothing is above. -/
theorem struckOut_eq (candidates : List (Candidate κ)) :
    struckOut candidates = (spared candidates.zipIdx candidates.zipIdx).map (·.1) := by
  have hstart : spared [] candidates.zipIdx = candidates.zipIdx :=
    List.filter_eq_self.2 fun _ _ => rfl
  have hplaces : ByPlace ([] ++ candidates.zipIdx) := byPlace_zipIdx candidates
  have hrun := foldl_strikeOut hplaces
  rw [List.nil_append, hstart] at hrun
  rw [struckOut, hrun]

/-! ## §3  One at a time -/

/-- One more candidate, behind all others. -/
theorem keepOutermost_spared {row : List (Candidate κ × ℕ)} {x : Candidate κ × ℕ}
    (hlast : ∀ y ∈ row, y.2 < x.2) :
    keepOutermost ((spared row row).map (·.1)) x.1 =
        (spared (row ++ [x]) (row ++ [x])).map (·.1) := by
  have hkept : spared (row ++ [x]) (row ++ [x]) =
      (spared row row).filter (fun y => !outranks x y) ++
        if row.any (outranks · x) then [] else [x] := by
    have hlonger : ∀ y : Candidate κ × ℕ,
        (!(row ++ [x]).any (outranks · y)) = (!outranks x y && !row.any (outranks · y)) := by
      intro y
      rw [List.any_append, Bool.not_or, Bool.and_comm]
      simp
    rw [spared, List.filter_append, List.filter_congr fun y _ => hlonger y,
      spared, List.filter_filter]
    congr 1
    rw [List.filter_cons, hlonger, not_outranks_self]
    cases row.any (outranks · x) <;> rfl
  by_cases hcovered : ∃ d ∈ spared row row, x.1.span.isInside d.1.span = true
  · obtain ⟨d, hd, hxd⟩ := hcovered
    obtain ⟨hdrow, _⟩ := mem_spared.1 hd
    have hany : ((spared row row).map (·.1)).any (fun d => x.1.span.isInside d.span) = true :=
      List.any_eq_true.2 ⟨d.1, List.mem_map_of_mem hd, hxd⟩
    have hbelow : row.any (outranks · x) = true :=
      List.any_eq_true.2 ⟨d, hdrow, (outranks_iff_of_lt (hlast d hdrow)).2 hxd⟩
    have hnone : (spared row row).filter (fun y => !outranks x y) = spared row row := by
      refine List.filter_eq_self.2 fun y hy => ?_
      obtain ⟨hyrow, htop⟩ := mem_spared.1 hy
      rw [Bool.not_eq_true', Bool.eq_false_iff]
      intro hxy
      exact Bool.eq_false_iff.1 (htop d hdrow)
        (outranks_trans ((outranks_iff_of_lt (hlast d hdrow)).2 hxd) hxy)
    rw [keepOutermost, if_pos hany, hkept, hbelow, hnone, if_pos rfl, List.append_nil]
  · push Not at hcovered
    have hany : ((spared row row).map (·.1)).any (fun d => x.1.span.isInside d.span) = false := by
      refine List.any_eq_false.2 fun d hd hxd => ?_
      obtain ⟨y, hy, rfl⟩ := List.mem_map.1 hd
      exact hcovered y hy hxd
    have htop : row.any (outranks · x) = false := by
      refine List.any_eq_false.2 fun y hy hyx => ?_
      obtain ⟨d, hd, hyd⟩ := exists_mem_spared hy
      exact hcovered d hd (Span.isInside_trans (outranks_iff.1 hyx).1 hyd)
    have hinside : (spared row row).filter (fun y => !outranks x y) =
        (spared row row).filter fun y => !y.1.span.isInside x.1.span := by
      refine List.filter_congr fun y hy =>
        congrArg _ (Bool.eq_iff_iff.2 ⟨fun hxy => (outranks_iff.1 hxy).1, ?_⟩)
      intro hyx
      refine outranks_iff.2 ⟨hyx, .inl fun hsame => hcovered y hy ?_⟩
      rw [hsame]
      exact Span.isInside_refl _
    rw [keepOutermost, hany, if_neg Bool.false_ne_true, hkept, htop, if_neg Bool.false_ne_true,
      hinside, List.map_append, List.filter_map]
    rfl

theorem outermost_eq (candidates : List (Candidate κ)) :
    outermost candidates = (spared candidates.zipIdx candidates.zipIdx).map (·.1) := by
  induction candidates using List.reverseRecOn with
  | nil => rfl
  | append_singleton front c ih =>
      have hlast : ∀ y ∈ front.zipIdx, y.2 < (c, front.length).2 := fun y hy => by
        simpa using List.snd_lt_of_mem_zipIdx hy
      have hstep : outermost (front ++ [c]) = keepOutermost (outermost front) c := List.foldl_append
      have hrow : (front ++ [c]).zipIdx = front.zipIdx ++ [(c, front.length)] := by
        simp [List.zipIdx_append]
      rw [hstep, ih, hrow]
      exact keepOutermost_spared hlast

/-- Taking candidates one at a time, each against those kept so far, is striking out. -/
theorem outermost_eq_struckOut (candidates : List (Candidate κ)) :
    outermost candidates = struckOut candidates :=
  (outermost_eq candidates).trans (struckOut_eq candidates).symm

/-! ## §4  What is left -/

/-- Whether some of the candidates of a row are one for each of the largest runs, the first that has
this run. -/
structure AreOutermost (candidates kept : List (Candidate κ)) : Prop where
  sublist : kept.Sublist candidates
  apart : kept.Pairwise fun c d => c.span.isInside d.span = false ∧ d.span.isInside c.span = false
  covers : ∀ c ∈ candidates, ∃ d ∈ kept, c.span.isInside d.span = true
  first : ∀ d ∈ kept, candidates.find? (·.span = d.span) = some d
  largest : ∀ s, s ∈ kept.map (·.span) ↔ s ∈ candidates.map (·.span) ∧
    ∀ t ∈ candidates.map (·.span), s.isInside t = true → t = s

/-- Of two candidates that nothing is above neither lies inside the other. -/
theorem apart_spared (candidates : List (Candidate κ)) :
    (spared candidates.zipIdx candidates.zipIdx).Pairwise fun x y =>
      x.1.span.isInside y.1.span = false ∧ y.1.span.isInside x.1.span = false := by
  refine ((byPlace_zipIdx candidates).filter _).imp_of_mem fun {x y} hx hy hlt => ?_
  obtain ⟨hxrow, hxtop⟩ := mem_spared.1 hx
  obtain ⟨hyrow, hytop⟩ := mem_spared.1 hy
  have hyx : y.1.span.isInside x.1.span = false :=
    Bool.eq_false_iff.2 fun hinside =>
      Bool.eq_false_iff.1 (hytop x hxrow) ((outranks_iff_of_lt hlt).2 hinside)
  refine ⟨Bool.eq_false_iff.2 fun hinside => Bool.eq_false_iff.1 (hxtop y hyrow) ?_, hyx⟩
  refine outranks_iff.2 ⟨hinside, .inl fun hsame => Bool.eq_false_iff.1 hyx ?_⟩
  rw [hsame]
  exact Span.isInside_refl _

/-- What nothing is above is the first candidate of its run. -/
theorem find?_of_mem_spared {candidates : List (Candidate κ)} {d : Candidate κ} {i : ℕ}
    (h : (d, i) ∈ spared candidates.zipIdx candidates.zipIdx) :
    candidates.find? (·.span = d.span) = some d := by
  obtain ⟨hmem, htop⟩ := mem_spared.1 h
  obtain ⟨hi, hd⟩ := List.getElem?_eq_some_iff.1 (List.mem_zipIdx_iff_getElem?.1 hmem)
  refine List.find?_eq_some_iff_getElem.2 ⟨decide_eq_true rfl, i, hi, hd, fun j hj => ?_⟩
  have hbefore : (candidates[j], j) ∈ candidates.zipIdx :=
    List.mem_zipIdx_iff_getElem?.2 (List.getElem?_eq_getElem (hj.trans hi))
  rw [Bool.not_eq_true', decide_eq_false_iff_not]
  intro hsame
  refine Bool.eq_false_iff.1 (htop _ hbefore) ((outranks_iff_of_lt hj).2 ?_)
  rw [hsame]
  exact Span.isInside_refl _

/-- **What is left.** Of any candidates, one for each of the largest runs is left, and it is the
first with this run. -/
theorem areOutermost_outermost (candidates : List (Candidate κ)) :
    AreOutermost candidates (outermost candidates) := by
  have hkept := outermost_eq candidates
  have hsub : (outermost candidates).Sublist candidates := by
    rw [hkept]
    conv_rhs => rw [← List.zipIdx_map_fst 0 candidates]
    exact List.filter_sublist.map _
  have hcovers : ∀ c ∈ candidates, ∃ d ∈ outermost candidates, c.span.isInside d.span = true := by
    intro c hc
    obtain ⟨i, hi⟩ := exists_mem_zipIdx hc
    obtain ⟨x, hx, hinside⟩ := exists_mem_spared hi
    exact ⟨x.1, hkept ▸ List.mem_map_of_mem hx, hinside⟩
  refine ⟨hsub, ?_, hcovers, ?_, fun s => ⟨?_, ?_⟩⟩
  · rw [hkept]
    exact List.pairwise_map.2 (apart_spared candidates)
  · intro d hd
    rw [hkept] at hd
    obtain ⟨⟨d, i⟩, hx, rfl⟩ := List.mem_map.1 hd
    exact find?_of_mem_spared hx
  · intro hs
    obtain ⟨d, hd, rfl⟩ := List.mem_map.1 hs
    refine ⟨List.mem_map_of_mem (hsub.subset hd), fun t ht hinside => ?_⟩
    obtain ⟨c, hc, rfl⟩ := List.mem_map.1 ht
    rw [hkept] at hd
    obtain ⟨x, hx, rfl⟩ := List.mem_map.1 hd
    obtain ⟨i, hi⟩ := exists_mem_zipIdx hc
    by_contra hne
    have habove : outranks (c, i) x = true :=
      outranks_iff.2 ⟨hinside, .inl fun hsame => hne hsame.symm⟩
    exact Bool.eq_false_iff.1 ((mem_spared.1 hx).2 _ hi) habove
  · rintro ⟨hs, hlargest⟩
    obtain ⟨c, hc, rfl⟩ := List.mem_map.1 hs
    obtain ⟨d, hd, hinside⟩ := hcovers c hc
    rw [← hlargest d.span (List.mem_map_of_mem (hsub.subset hd)) hinside]
    exact List.mem_map_of_mem hd

end Candidate

/-! ## §5  Fractions in a row of nodes -/

/-- The fraction that a node is. -/
def Node.fraction? : Node κ → Option (Composite κ)
  | .fraction f => some f
  | _ => none

theorem Node.eq_fraction_of_fraction? {n : Node κ} {f : Composite κ} (h : n.fraction? = some f) :
    n = .fraction f := by
  cases n with
  | plain i leaf | exponent x => cases h
  | fraction g =>
      cases h
      rfl

def fractionsOf (nodes : List (Node κ)) : List (Composite κ) := nodes.filterMap Node.fraction?

theorem pairwise_fractionsOf_splice (place : ℕ) (leaves : List (Leaf κ))
    (fractions : List (Composite κ)) :
    (fractionsOf (splice place leaves fractions)).Pairwise fun f g =>
        f.span.stop ≤ g.span.start := by
  refine List.pairwise_filterMap.2
    ((tiles_splice place leaves fractions).pairwise.imp fun {m n} hmn f hf g hg => ?_)
  rw [Node.eq_fraction_of_fraction? hf, Node.eq_fraction_of_fraction? hg] at hmn
  exact hmn

/-- The fractions of a row are some of those that were found, in their order. -/
theorem fractionsOf_splice_sublist (place : ℕ) (leaves : List (Leaf κ))
    (fractions : List (Composite κ)) :
    (fractionsOf (splice place leaves fractions)).Sublist fractions := by
  fun_induction splice place leaves fractions with
  | case1 => exact List.nil_sublist _
  | case2 leaf rest fractions f later hkept ih =>
      exact (ih.cons_cons f).trans (hkept ▸ List.dropWhile_sublist _)
  | case3 i leaf rest fractions f later hkept _ ih =>
      exact ih.trans (hkept ▸ List.dropWhile_sublist _)
  | case4 i leaf rest fractions _ ih => exact ih.trans (List.nil_sublist _)

theorem mem_dropWhile_of_le {i : ℕ} {fractions : List (Composite κ)} {f : Composite κ}
    (hf : f ∈ fractions) (hi : i ≤ f.span.start) :
    f ∈ fractions.dropWhile fun g => g.span.start < i := by
  have hsplit := List.takeWhile_append_dropWhile (p := fun g : Composite κ =>
      decide (g.span.start < i)) (l := fractions)
  rw [← hsplit] at hf
  refine (List.mem_append.1 hf).resolve_left fun hpassed => ?_
  have hbefore := List.mem_takeWhile_imp hpassed
  exact absurd (of_decide_eq_true hbefore) hi.not_gt

/-- A fraction is left out only if it starts inside one that is not. -/
theorem mem_fractionsOf_splice (place : ℕ) (leaves : List (Leaf κ)) (fractions : List (Composite κ))
    (hsorted : fractions.Pairwise fun f g => f.span.start ≤ g.span.start) :
    ∀ f ∈ fractions, place ≤ f.span.start → f.span.start < place + leaves.length →
      f ∈ fractionsOf (splice place leaves fractions) ∨
        ∃ g ∈ fractionsOf (splice place leaves fractions), g.span.holds f.span.start = true := by
  fun_induction splice place leaves fractions with
  | case1 i =>
      intro f _ hplace hlength
      exact absurd hlength hplace.not_gt
  | case2 leaf rest fractions g later hkept ih =>
      intro f hf hplace hlength
      have hmem : f ∈ g :: later := hkept ▸ mem_dropWhile_of_le hf hplace
      have hlater : (g :: later).Pairwise fun f g => f.span.start ≤ g.span.start :=
        hkept ▸ hsorted.sublist (List.dropWhile_sublist _)
      rcases List.mem_cons.1 hmem with rfl | hmem
      · exact .inl List.mem_cons_self
      · by_cases hinside : f.span.start < g.span.stop
        · exact .inr ⟨g, List.mem_cons_self, Span.holds_iff.2 ⟨hplace, hinside⟩⟩
        · have hrest : f.span.start <
              g.span.stop + (rest.drop (g.span.stop - (g.span.start + 1))).length := by
            have hstop := g.span.start_lt_stop
            rw [List.length_drop]
            rw [List.length_cons] at hlength
            omega
          rcases ih (List.Pairwise.of_cons hlater) f hmem (by omega) hrest with h | ⟨e, he, hholds⟩
          · exact .inl (List.mem_cons_of_mem g h)
          · exact .inr ⟨e, List.mem_cons_of_mem g he, hholds⟩
  | case3 i leaf rest fractions g later hkept hne ih =>
      intro f hf hplace hlength
      have hmem : f ∈ g :: later := hkept ▸ mem_dropWhile_of_le hf hplace
      have hlater : (g :: later).Pairwise fun f g => f.span.start ≤ g.span.start :=
        hkept ▸ hsorted.sublist (List.dropWhile_sublist _)
      have hfirst : g.span.start ≤ f.span.start := by
        rcases List.mem_cons.1 hmem with rfl | hmem
        · exact le_rfl
        · exact List.rel_of_pairwise_cons hlater hmem
      have hnext : i ≤ g.span.start := by
        have hhead := List.head?_dropWhile_not (fun g : Composite κ =>
            decide (g.span.start < i)) fractions
        rw [hkept] at hhead
        simpa using hhead
      rw [List.length_cons] at hlength
      exact ih hlater f hmem (by omega) (by omega)
  | case4 i leaf rest fractions hkept ih =>
      intro f hf hplace _
      exact absurd (hkept ▸ mem_dropWhile_of_le hf hplace) List.not_mem_nil

/-! ## §6  Outermost fractions -/

variable [Coordinate κ] {inner : List (Leaf κ) → Except LimitPassed (List Char)}
  {leaves : List (Leaf κ)} {fractions : List (Composite κ)}

/-- Whether the fractions in a row of nodes are those of some candidates, side by side, without
those that start inside another one. -/
structure BuiltFrom (assembled : Candidate κ → Except LimitPassed (Composite κ))
    (kept : List (Candidate κ)) (nodes : List (Node κ)) : Prop where
  of_kept : ∀ f ∈ fractionsOf nodes, ∃ c ∈ kept, assembled c = .ok f ∧ f.span = c.span
  disjoint : (fractionsOf nodes).Pairwise fun f g => f.span.stop ≤ g.span.start
  missing : ∀ c ∈ kept, ∃ f, assembled c = .ok f ∧
    (f ∈ fractionsOf nodes ∨ ∃ g ∈ fractionsOf nodes, g.span.holds c.span.start = true)

theorem Candidate.span_of_assemble {c : Candidate κ} {f : Composite κ}
    (h : c.assemble inner leaves = .ok f) :
    f.span = c.span := by
  obtain ⟨num, _, h⟩ := exists_of_bind_eq_ok h
  obtain ⟨den, _, h⟩ := exists_of_bind_eq_ok h
  cases h
  rfl

theorem exists_findFractions_iff : (∃ fractions, findFractions inner leaves = .ok fractions) ↔
    ∀ c ∈ Candidate.outermost (Candidate.all leaves), ∃ f, c.assemble inner leaves = .ok f := by
  constructor
  · rintro ⟨fractions, h⟩ c hc
    obtain ⟨unsorted, hmap, _⟩ := exists_of_bind_eq_ok h
    obtain ⟨f, _, hf⟩ := exists_result_of_mapM_eq_ok hmap c hc
    exact ⟨f, hf⟩
  · exact fun h => exists_bind_eq_ok (exists_mapM_eq_ok h) fun _ _ => ⟨_, rfl⟩

theorem builtFrom_splice (h : findFractions inner leaves = .ok fractions) :
    BuiltFrom (Candidate.assemble inner leaves) (Candidate.outermost (Candidate.all leaves))
      (splice 0 leaves fractions) := by
  obtain ⟨unsorted, hmap, hsort⟩ := exists_of_bind_eq_ok h
  obtain rfl : unsorted.mergeSort (fun a b => a.span.start ≤ b.span.start) =
      fractions := Except.ok.inj hsort
  have hperm := List.mergeSort_perm unsorted fun a b => a.span.start ≤ b.span.start
  have hsorted : (unsorted.mergeSort fun a b => a.span.start ≤ b.span.start).Pairwise
      fun f g => f.span.start ≤ g.span.start := by
    refine (List.pairwise_mergeSort ?_ ?_ unsorted).imp fun hle => of_decide_eq_true hle
    · intro f g e hfg hge
      exact decide_eq_true ((of_decide_eq_true hfg).trans (of_decide_eq_true hge))
    · intro f g
      simpa using le_total f.span.start g.span.start
  refine ⟨fun f hf => ?_, pairwise_fractionsOf_splice _ _ _, fun c hc => ?_⟩
  · have hfound := hperm.subset ((fractionsOf_splice_sublist _ _ _).subset hf)
    obtain ⟨c, hc, hcf⟩ := exists_mem_of_mapM_eq_ok hmap f hfound
    exact ⟨c, hc, hcf, Candidate.span_of_assemble hcf⟩
  · obtain ⟨f, hf, hcf⟩ := exists_result_of_mapM_eq_ok hmap c hc
    have hspan := Candidate.span_of_assemble hcf
    -- a fraction starts in the row, because its bar is in it
    obtain ⟨place, hat⟩ := Candidate.exists_isAt_of_mem_all (Candidate.mem_of_mem_outermost hc)
    have hstart : f.span.start < 0 + leaves.length := by
      have hbar := (Span.holds_iff.1 hat.holds_bar).1
      obtain ⟨hplace, _⟩ := List.getElem?_eq_some_iff.1 hat.bar_at
      rw [hspan]
      omega
    have hmissing := mem_fractionsOf_splice 0 leaves _ hsorted f (hperm.mem_iff.2 hf)
        (Nat.zero_le _) hstart
    rw [hspan] at hmissing
    exact ⟨f, hcf, hmissing⟩

/-- **Outermost fractions.** Of the candidates of a row those are kept that are left when each in
turn strikes out what lies inside it: one for each of the largest runs, the first with this run. If
the sides of these can be read, they become the fractions of the row, except those that start inside
another one. -/
theorem outermost_fractions (inner : List (Leaf κ) → Except LimitPassed (List Char))
    (leaves : List (Leaf κ)) :
    Candidate.outermost (Candidate.all leaves) = Candidate.struckOut (Candidate.all leaves) ∧
      Candidate.AreOutermost (Candidate.all leaves) (Candidate.outermost (Candidate.all leaves)) ∧
      ((∃ fractions, findFractions inner leaves = .ok fractions) ↔
        ∀ c ∈ Candidate.outermost (Candidate.all leaves), ∃ f, c.assemble inner leaves = .ok f) ∧
      ∀ fractions, findFractions inner leaves = .ok fractions →
        BuiltFrom (Candidate.assemble inner leaves) (Candidate.outermost (Candidate.all leaves))
          (splice 0 leaves fractions) :=
  ⟨Candidate.outermost_eq_struckOut _, Candidate.areOutermost_outermost _, exists_findFractions_iff,
    fun _ => builtFrom_splice⟩

/-- One over two fifths, and beside it three over four, with a three so wide that it starts over the
other fraction. -/
def crossedQuotients : List (Leaf Float) :=
  ([symbolAt "-" 0.3 0.5 0.4 0.01, symbolAt "1" 0.2 0.4 0.05 0.1, symbolAt "3" 0.7 0.4 0.9 0.1,
    symbolAt "-" 0.4 0.7 0.1 0.01, symbolAt "2" 0.4 0.6 0.05 0.1, symbolAt "5" 0.4 0.8 0.05 0.1,
    symbolAt "-" 0.7 0.5 0.2 0.01, symbolAt "4" 0.7 0.6 0.05 0.1]).map
      (.ofDetection standardPage.geometry)

/-- Of three candidates the inner one goes; the other two cross and are both kept. -/
theorem crossedQuotients_outermost :
    (Candidate.all crossedQuotients).map (fun c => (c.span.start, c.span.stop)) =
      [(0, 6), (3, 6), (2, 8)] ∧
      (Candidate.outermost (Candidate.all crossedQuotients)).map
        (fun c => (c.span.start, c.span.stop)) = [(0, 6), (2, 8)] ∧
      ∃ fractions, findFractions (standardPage.assembleRow 8) crossedQuotients = .ok fractions ∧
        BuiltFrom (Candidate.assemble (standardPage.assembleRow 8) crossedQuotients)
          (Candidate.outermost (Candidate.all crossedQuotients))
          (splice 0 crossedQuotients fractions) := by
  have hassembles : AssemblesUpTo (standardPage.assembleRow 8) 8 :=
    standardPage.assemblesUpTo_assembleRow 8
  have hlength : crossedQuotients.length ≤ 8 + 1 := by decide
  obtain ⟨fractions, hfractions⟩ := hassembles.exists_findFractions hlength
  refine ⟨by decide +kernel, by decide +kernel, fractions, hfractions, ?_⟩
  exact (outermost_fractions _ _).2.2.2 fractions hfractions

end InkAlgebra
