import CmaesSolenoid.SearchRecords

/-!
# The stopping criteria on the histories

What `tolHistFun`, `equalFunVals` and `stagnation` find after any number of rounds, as
statements about the generations of the run.
-/

namespace CmaesSolenoid.Libcmaes

variable {X : Type} {p : SearchParameters} {st t : Strategy X} {e : Evaluation X ℚ}
  {rs : List (Round X)} {gens : List (Summary X)}

theorem frange_lt_iff {values : List ℚ} (h : values ≠ []) (threshold : ℚ) :
    (∃ rg, frange values = some rg ∧ rg < threshold) ↔
      ∀ a ∈ values, ∀ b ∈ values, a - b < threshold := by
  obtain ⟨least, hmin⟩ := Option.ne_none_iff_exists'.mp (mt List.min?_eq_none_iff.mp h)
  obtain ⟨greatest, hmax⟩ := Option.ne_none_iff_exists'.mp (mt List.max?_eq_none_iff.mp h)
  have hrange : frange values = some (greatest - least) := by
    rw [frange, hmin, hmax]
    rfl
  obtain ⟨hleast, hle⟩ := List.min?_eq_some_iff.mp hmin
  obtain ⟨hgreatest, hge⟩ := List.max?_eq_some_iff.mp hmax
  rw [hrange]
  constructor
  · rintro ⟨rg, hrg, hlt⟩ a ha b hb
    obtain rfl := Option.some.inj hrg
    have h1 := hge a ha
    have h2 := hle b hb
    linarith
  · intro hall
    exact ⟨greatest - least, rfl, hall greatest hgreatest least hleast⟩

theorem histThresh_pos (p : SearchParameters) (s : SearchSolutions X) : 0 < histThresh p s :=
  lt_min s.maxHist_pos (Nat.add_pos_left (by decide) _)

theorem Records.tolHistFunHolds_iff (h : Records p gens t) :
    tolHistFunHolds p t.solutions ↔ histThresh p t.solutions ≤ gens.length ∧
      ∀ g ∈ gens.rtake (histThresh p t.solutions), ∀ g' ∈ gens.rtake (histThresh p t.solutions),
        g.best.fvalue - g'.best.fvalue < max p.ftolerance (1 / 10 ^ 12) := by
  have hpos := histThresh_pos p t.solutions
  have hmax : histThresh p t.solutions ≤ t.solutions.maxHist := min_le_left _ _
  have hlen : t.solutions.bestCandidatesHist.length = min t.solutions.maxHist gens.length := by
    rw [h.bests, RecentHistory.length_rtake, List.length_map]
  rw [tolHistFunHolds]
  by_cases henough : histThresh p t.solutions ≤ gens.length
  · have hfull : min (histThresh p t.solutions) t.solutions.bestCandidatesHist.length =
        histThresh p t.solutions := by omega
    have hvalues : (t.solutions.bestCandidatesHist.rtake (histThresh p t.solutions)).map
        Candidate.fvalue =
          (gens.rtake (histThresh p t.solutions)).map fun g => g.best.fvalue := by
      rw [h.bests, RecentHistory.rtake_rtake_of_le hmax, ← RecentHistory.map_rtake, List.map_map]
      rfl
    have hne : (gens.rtake (histThresh p t.solutions)).map (fun g => g.best.fvalue) ≠ [] := by
      apply List.ne_nil_of_length_pos
      rw [List.length_map, RecentHistory.length_rtake]
      omega
    have hrange := frange_lt_iff hne (max p.ftolerance (1 / 10 ^ 12))
    simp only [List.forall_mem_map] at hrange
    simp only [hfull, lt_irrefl, if_false, hvalues, henough, true_and, ← hrange]
    cases frange ((gens.rtake (histThresh p t.solutions)).map fun g => g.best.fvalue) with
    | none => simp
    | some rg => simp
  · have hfew : min (histThresh p t.solutions) t.solutions.bestCandidatesHist.length <
        histThresh p t.solutions := by omega
    simp [hfew, henough]

theorem zip_rtake {α β : Type} {as : List α} {bs : List β} (h : as.length = bs.length) (n : ℕ) :
    (as.zip bs).rtake n = (as.rtake n).zip (bs.rtake n) := by
  rw [List.rtake, List.rtake, List.rtake, List.zip, List.drop_zipWith, List.length_zipWith, ← h,
    min_self]

def Summary.Flat (g : Summary X) : Bool := g.best.fvalue = g.kBest.fvalue

theorem Records.equalFunValsHolds_iff (h : Records p gens t) :
    equalFunValsHolds p t.solutions ↔
      t.solutions.maxHist ≤ p.dim ∧ t.solutions.maxHist ≤ gens.length ∧
        t.solutions.maxHist < 3 * (gens.rtake t.solutions.maxHist).countP Summary.Flat := by
  have hlen : t.solutions.bestCandidatesHist.length = min t.solutions.maxHist gens.length := by
    rw [h.bests, RecentHistory.length_rtake, List.length_map]
  rw [equalFunValsHolds]
  by_cases henough : t.solutions.maxHist ≤ p.dim ∧ t.solutions.maxHist ≤ gens.length
  · -- then the length compared is that of the full history
    have hfull : min p.dim t.solutions.bestCandidatesHist.length = t.solutions.maxHist := by omega
    have hpairs : (t.solutions.bestCandidatesHist.zip t.solutions.kBestCandidatesHist).rtake
        t.solutions.maxHist =
          (gens.rtake t.solutions.maxHist).map fun g => (g.best, g.kBest) := by
      rw [h.bests, h.kBests, ← zip_rtake (by simp), RecentHistory.rtake_rtake_of_le le_rfl,
        List.zip_map', RecentHistory.map_rtake]
    simp only [hfull, lt_irrefl, if_false, hpairs, List.countP_map, henough, true_and,
      decide_eq_true_eq]
    rfl
  · have hfew : min p.dim t.solutions.bestCandidatesHist.length < t.solutions.maxHist := by omega
    simp only [hfew, if_true, Bool.false_eq_true, false_iff]
    omega

theorem Records.stagnationHolds_iff (h : Records p gens t) :
    stagnationHolds t.solutions ↔ 20 ≤ gens.length ∧
      ∃ new old, median ((gens.rtake 20).map fun g => g.best.fvalue) = some new ∧
        median (((gens.rtake
          (SearchSolutions.medianBound p.dim p.lambda (gens.length - 1))).take 20).map
            Summary.mid) = some old ∧ old ≤ new := by
  have hbound := SearchSolutions.le_medianBound p.dim p.lambda (gens.length - 1)
  have hbf : t.solutions.bfvalues = (gens.rtake 20).map fun g => g.best.fvalue := by
    rw [h.bfvalues, RecentHistory.map_rtake]
  have hmed : t.solutions.medianFvalues.take 20 = ((gens.rtake
      (SearchSolutions.medianBound p.dim p.lambda (gens.length - 1))).take 20).map
        Summary.mid := by
    rw [h.medians, List.map_take, RecentHistory.map_rtake]
  have hlen1 : t.solutions.bfvalues.length = min 20 gens.length := by
    rw [h.bfvalues, RecentHistory.length_rtake, List.length_map]
  have hlen2 : t.solutions.medianFvalues.length =
      min (SearchSolutions.medianBound p.dim p.lambda (gens.length - 1)) gens.length := by
    rw [h.medians, RecentHistory.length_rtake, List.length_map]
  rw [stagnationHolds, ← hbf, ← hmed]
  by_cases henough : 20 ≤ gens.length
  · have hboth : ¬ (t.solutions.bfvalues.length < 20 ∨ t.solutions.medianFvalues.length < 20) := by
      omega
    rw [if_neg hboth]
    cases median t.solutions.bfvalues <;> cases median (t.solutions.medianFvalues.take 20) <;>
      simp [henough]
  · have hfew : t.solutions.bfvalues.length < 20 ∨ t.solutions.medianFvalues.length < 20 := by
      omega
    simp [hfew, henough]

end CmaesSolenoid.Libcmaes
