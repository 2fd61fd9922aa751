import Mathlib
import InkAlgebra.Layout.Assembly

/-!
# Runs of leaves

The nodes of a row stand for runs of leaves, and these runs tile the row: each starts where the one
before it stops, whichever fractions were put in. So the leaves of consecutive nodes are those of
the run from the first to the last, which is what a script is cut out by.

§1 is runs, §2 nodes, §3 the nodes of a row.
-/

namespace InkAlgebra

variable {κ : Type}

/-! ## §1  Runs -/

variable {β : Type}

/-- What a row goes on with in some place is the entry there and what is behind it. -/
theorem getElem?_of_drop_eq_cons {entries rest : List β} {i : ℕ} {x : β}
    (h : entries.drop i = x :: rest) :
    entries[i]? = some x ∧ entries.drop (i + 1) = rest := by
  refine ⟨?_, ?_⟩
  · rw [← List.head?_drop, h]
    rfl
  · rw [← List.drop_drop, h]
    rfl

namespace Span

theorem isInside_refl (a : Span) : a.isInside a = true := isInside_iff.2 ⟨le_rfl, le_rfl⟩

theorem isInside_trans {a b c : Span} (hab : a.isInside b = true) (hbc : b.isInside c = true) :
    a.isInside c = true := by
  rw [isInside_iff] at *
  exact ⟨hbc.1.trans hab.1, hab.2.trans hbc.2⟩

theorem isInside_antisymm {a b : Span} (hab : a.isInside b = true) (hba : b.isInside a = true) :
    a = b := by
  rw [isInside_iff] at *
  rw [Span.mk.injEq]
  omega

theorem slice_single {entries rest : List β} {i : ℕ} {x : β} (h : entries.drop i = x :: rest) :
    (single i).slice entries = [x] := by
  have hlength : (single i).stop - (single i).start = 1 := Nat.add_sub_cancel_left i 1
  have hstart : (single i).start = i := rfl
  rw [slice, hlength, hstart, h]
  rfl

theorem slice_single_of_getElem? {entries : List β} {i : ℕ} {x : β} (h : entries[i]? = some x) :
    (single i).slice entries = [x] := by
  obtain ⟨hi, rfl⟩ := List.getElem?_eq_some_iff.1 h
  exact slice_single (List.drop_eq_getElem_cons hi)

/-- Two runs side by side are one run. -/
theorem slice_append_slice {a b : Span} (h : a.stop = b.start) (entries : List β) :
    a.slice entries ++ b.slice entries = (a.join b).slice entries := by
  have ha := a.start_lt_stop
  have hb := b.start_lt_stop
  have hdrop : entries.drop b.start = (entries.drop a.start).drop (a.stop - a.start) := by
    rw [List.drop_drop]
    congr 1
    omega
  have hstart : (a.join b).start = a.start := by
    rw [start_join]
    omega
  have hlength : (a.join b).stop - a.start = (a.stop - a.start) + (b.stop - b.start) := by
    rw [stop_join]
    omega
  rw [slice, slice, slice, hstart, hlength, hdrop, List.take_add]

/-- A run and what is behind it are all that is left at its start. -/
theorem slice_append_drop (s : Span) (entries : List β) :
    s.slice entries ++ entries.drop s.stop = entries.drop s.start := by
  have hdrop : entries.drop s.stop = (entries.drop s.start).drop (s.stop - s.start) := by
    rw [List.drop_drop, Nat.add_sub_cancel' s.start_lt_stop.le]
  rw [slice, hdrop, List.take_append_drop]

theorem drop_stop {s : Span} {entries rest : List β} {x : β}
    (h : entries.drop s.start = x :: rest) :
    entries.drop s.stop = rest.drop (s.stop - (s.start + 1)) := by
  obtain ⟨_, hrest⟩ := getElem?_of_drop_eq_cons h
  rw [← hrest, List.drop_drop, Nat.add_sub_cancel' s.start_lt_stop]

/-- Whether a place is one of a run. -/
def holds (s : Span) (i : ℕ) : Bool := s.start ≤ i && i < s.stop

theorem holds_iff {s : Span} {i : ℕ} : s.holds i = true ↔ s.start ≤ i ∧ i < s.stop := by
  simp [holds]

theorem holds_single {i j : ℕ} : (single i).holds j = true ↔ j = i := by
  rw [holds_iff]
  simp only [single]
  omega

/-- The entries of a run are those in its places. -/
theorem map_fst_filter_holds (s : Span) (entries : List β) :
    (entries.zipIdx.filter fun x => s.holds x.2).map (·.1) = s.slice entries := by
  have hsplit : entries = entries.take s.start ++ (s.slice entries ++ entries.drop s.stop) := by
    rw [slice_append_drop, List.take_append_drop]
  have hlt := s.start_lt_stop
  have htake : (entries.take s.start).length = min s.start entries.length := List.length_take
  have hslice : (s.slice entries).length = min (s.stop - s.start) (entries.length - s.start) := by
    rw [slice, List.length_take, List.length_drop]
  -- of the places in front of the run and behind it none is kept, of those in it all
  have hfront : ((entries.take s.start).zipIdx.filter fun x => s.holds x.2) = [] := by
    refine List.filter_eq_nil_iff.2 fun x hx hholds => ?_
    have := List.snd_lt_of_mem_zipIdx hx
    have := holds_iff.1 hholds
    omega
  have hmiddle :
      (((s.slice entries).zipIdx (0 + (entries.take s.start).length)).filter fun x => s.holds x.2) =
      (s.slice entries).zipIdx (0 + (entries.take s.start).length) := by
    refine List.filter_eq_self.2 fun x hx => holds_iff.2 ?_
    have := List.le_snd_of_mem_zipIdx hx
    have := List.snd_lt_of_mem_zipIdx hx
    omega
  have hback : (((entries.drop s.stop).zipIdx
      (0 + (entries.take s.start).length + (s.slice entries).length)).filter fun x =>
          s.holds x.2) = [] := by
    refine List.filter_eq_nil_iff.2 fun x hx hholds => ?_
    have := List.le_snd_of_mem_zipIdx hx
    have := List.snd_lt_of_mem_zipIdx hx
    have := holds_iff.1 hholds
    rw [List.length_drop] at *
    omega
  calc (entries.zipIdx.filter fun x => s.holds x.2).map (·.1)
    _ = ((entries.take s.start ++ (s.slice entries ++ entries.drop s.stop)).zipIdx.filter
          fun x => s.holds x.2).map (·.1) := by rw [← hsplit]
    _ = s.slice entries := by
      rw [List.zipIdx_append, List.zipIdx_append, List.filter_append, List.filter_append, hfront,
        hmiddle, hback, List.nil_append, List.append_nil, List.zipIdx_map_fst]
end Span

/-! ## §2  Nodes -/

namespace Node

/-- The leaves that a node stands for. -/
def covered (leaves : List (Leaf κ)) (n : Node κ) : List (Leaf κ) := n.span.slice leaves

/-- What the nodes of a row are, before scripts are taken up: leaves in their places, and
fractions. -/
def IsPiece (leaves : List (Leaf κ)) (fractions : List (Composite κ)) : Node κ → Prop
  | plain i leaf => leaves[i]? = some leaf
  | fraction f => f ∈ fractions
  | exponent _ => False

theorem IsPiece.mono {leaves : List (Leaf κ)} {few fractions : List (Composite κ)} {n : Node κ}
    (h : n.IsPiece leaves few) (hsub : few ⊆ fractions) : n.IsPiece leaves fractions := by
  cases n with
  | plain i leaf => exact h
  | fraction f => exact hsub h
  | exponent f => exact h

end Node

/-- Whether nodes stand for runs that follow one another, from a given place on. -/
def Tiles : ℕ → List (Node κ) → Prop
  | _, [] => True
  | place, n :: rest => n.span.start = place ∧ Tiles n.span.stop rest

theorem Tiles.drop {place : ℕ} {nodes : List (Node κ)} (h : Tiles place nodes) (n : ℕ) :
    ∃ place', Tiles place' (nodes.drop n) := by
  induction n generalizing place nodes with
  | zero => exact ⟨place, h⟩
  | succ n ih =>
      cases nodes with
      | nil => exact ⟨place, trivial⟩
      | cons a rest => exact ih h.2

theorem Tiles.take {place : ℕ} {nodes : List (Node κ)} (h : Tiles place nodes) (n : ℕ) :
    Tiles place (nodes.take n) := by
  induction n generalizing place nodes with
  | zero => trivial
  | succ n ih =>
      cases nodes with
      | nil => trivial
      | cons a rest => exact ⟨h.1, ih h.2⟩

theorem Tiles.le_start {place : ℕ} {nodes : List (Node κ)} (h : Tiles place nodes) :
    ∀ n ∈ nodes, place ≤ n.span.start := by
  induction nodes generalizing place with
  | nil => exact fun n hn => absurd hn List.not_mem_nil
  | cons m rest ih =>
      obtain ⟨hm, hrest⟩ := h
      refine List.forall_mem_cons.2 ⟨hm.ge, fun n hn => ?_⟩
      exact hm.ge.trans (m.span.start_lt_stop.le.trans (ih hrest n hn))

/-- Nodes that tile stand for runs that have nothing in common. -/
theorem Tiles.pairwise {place : ℕ} {nodes : List (Node κ)} (h : Tiles place nodes) :
    nodes.Pairwise fun m n => m.span.stop ≤ n.span.start := by
  induction nodes generalizing place with
  | nil => exact .nil
  | cons m rest ih => exact .cons h.2.le_start (ih h.2)

/-- The last of consecutive nodes starts and stops no earlier than the first. -/
theorem Tiles.le_last {place : ℕ} {first : Node κ} {more : List (Node κ)}
    (h : Tiles place (first :: more)) :
    first.span.start ≤ (more.getLast?.getD first).span.start ∧
      first.span.stop ≤ (more.getLast?.getD first).span.stop := by
  induction more generalizing place first with
  | nil => exact ⟨le_rfl, le_rfl⟩
  | cons second rest ih =>
      obtain ⟨hstart, hstop⟩ := ih h.2
      have hnext : second.span.start = first.span.stop := h.2.1
      have hfirst := first.span.start_lt_stop
      have hsecond := second.span.start_lt_stop
      rw [List.getLast?_cons, Option.getD_some]
      omega

/-- **Consecutive nodes.** The leaves of nodes that tile are those of the run from the first to the
last. -/
theorem Tiles.slice_eq_flatMap {place : ℕ} {first : Node κ} {more : List (Node κ)}
    (h : Tiles place (first :: more)) (leaves : List (Leaf κ)) :
    (first.span.join (more.getLast?.getD first).span).slice leaves =
      (first :: more).flatMap (Node.covered leaves) := by
  induction more generalizing place first with
  | nil =>
      have hself : first.span.join first.span = first.span := by
        rcases first.span with ⟨start, stop, hlt⟩
        simp [Span.join]
      rw [List.getLast?_nil, Option.getD_none, hself]
      exact (List.append_nil _).symm
  | cons second rest ih =>
      rw [List.getLast?_cons, Option.getD_some, List.flatMap_cons, ← ih h.2]
      obtain ⟨hstart, hstop⟩ := h.2.le_last
      have hnext : second.span.start = first.span.stop := h.2.1
      have hfirst := first.span.start_lt_stop
      have hsecond := second.span.start_lt_stop
      generalize rest.getLast?.getD second = last at hstart hstop ⊢
      have hbeside : first.span.stop = (second.span.join last.span).start := by
        rw [Span.start_join]
        omega
      rw [Node.covered, Span.slice_append_slice hbeside]
      congr 1
      rw [Span.mk.injEq]
      simp only [Span.start_join, Span.stop_join]
      omega

/-! ## §3  The nodes of a row -/

theorem tiles_splice (place : ℕ) (leaves : List (Leaf κ)) (fractions : List (Composite κ)) :
    Tiles place (splice place leaves fractions) := by
  fun_induction splice place leaves fractions with
  | case1 => trivial
  | case2 leaf rest fractions f later _ ih => exact ⟨rfl, ih⟩
  | case3 i leaf rest fractions f later _ _ ih => exact ⟨rfl, ih⟩
  | case4 i leaf rest fractions _ ih => exact ⟨rfl, ih⟩

variable {all leaves : List (Leaf κ)} {place : ℕ} {fractions : List (Composite κ)}

/-- The nodes of a row stand for all its leaves. -/
theorem flatMap_covered_splice (h : all.drop place = leaves) :
    (splice place leaves fractions).flatMap (Node.covered all) = leaves := by
  fun_induction splice place leaves fractions with
  | case1 => rfl
  | case2 leaf rest fractions f later _ ih =>
      have hbehind := Span.drop_stop h
      rw [List.flatMap_cons, ih hbehind, ← hbehind, ← h]
      exact f.span.slice_append_drop all
  | case3 i leaf rest fractions f later _ _ ih =>
      obtain ⟨_, hrest⟩ := getElem?_of_drop_eq_cons h
      rw [List.flatMap_cons, ih hrest]
      exact congrArg (· ++ rest) (Span.slice_single h)
  | case4 i leaf rest fractions _ ih =>
      obtain ⟨_, hrest⟩ := getElem?_of_drop_eq_cons h
      rw [List.flatMap_cons, ih hrest]
      exact congrArg (· ++ rest) (Span.slice_single h)

theorem isPiece_of_mem_splice (h : all.drop place = leaves) :
    ∀ n ∈ splice place leaves fractions, n.IsPiece all fractions := by
  fun_induction splice place leaves fractions with
  | case1 => exact fun n hn => absurd hn List.not_mem_nil
  | case2 leaf rest fractions f later hkept ih =>
      have hsub : f :: later ⊆ fractions := hkept ▸ List.dropWhile_subset _
      refine List.forall_mem_cons.2 ⟨hsub (List.mem_cons_self ..), fun n hn => ?_⟩
      exact (ih (Span.drop_stop h) n hn).mono fun g hg => hsub (List.mem_cons_of_mem f hg)
  | case3 i leaf rest fractions f later hkept _ ih =>
      have hsub : f :: later ⊆ fractions := hkept ▸ List.dropWhile_subset _
      obtain ⟨hleaf, hrest⟩ := getElem?_of_drop_eq_cons h
      exact List.forall_mem_cons.2 ⟨hleaf, fun n hn => (ih hrest n hn).mono hsub⟩
  | case4 i leaf rest fractions _ ih =>
      obtain ⟨hleaf, hrest⟩ := getElem?_of_drop_eq_cons h
      exact List.forall_mem_cons.2 ⟨hleaf, fun n hn => (ih hrest n hn).mono (List.nil_subset _)⟩

end InkAlgebra
