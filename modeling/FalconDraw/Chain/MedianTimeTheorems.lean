/-
FalconDraw.Chain.MedianTimeTheorems — the median time of a chain never goes back.

A header must be later than the median of its parent.
-/
import FalconDraw.Lib.Rank
import FalconDraw.Chain.HeaderChecks

namespace FalconDraw.Chain

open Lib List

variable {chain : List HeaderInfo}
variable {header : HeaderInfo}

def windowTimes (chain : List HeaderInfo) : List Int :=
  (chain.take medianTimeBlocks).map HeaderInfo.timestamp

theorem length_windowTimes (chain : List HeaderInfo) :
    (windowTimes chain).length = min medianTimeBlocks chain.length := by
  rw [windowTimes, length_map, length_take]

theorem upperMedian_windowTimes (h : chain ≠ []) :
    upperMedian (windowTimes chain) = some (calcPastMedianTime chain) := by
  have hpos := length_pos_of_ne_nil h
  have hwindow : windowTimes chain ≠ [] := by
    rw [← length_pos_iff, length_windowTimes]
    unfold medianTimeBlocks
    omega
  obtain ⟨m, hm⟩ := exists_upperMedian hwindow
  have hmedian : calcPastMedianTime chain = (upperMedian (windowTimes chain)).getD 0 := by
    unfold calcPastMedianTime upperMedian
    dsimp only
    rw [length_insertionSort, getD_eq_getElem?_getD]
    rfl
  rw [hmedian, hm]
  rfl

/-- The rule about times: every header is later than the median of its parent. -/
def TimesRise : List HeaderInfo → Prop
  | [] => True
  | header :: parents =>
    (parents ≠ [] → calcPastMedianTime parents < header.timestamp) ∧ TimesRise parents

instance : ∀ chain, Decidable (TimesRise chain)
  | [] => .isTrue trivial
  | _ :: parents =>
    have := instDecidableTimesRise parents
    inferInstanceAs (Decidable (_ ∧ _))

theorem timesRise_of_check {c : ChainCtx} {skipCheckpoint : Bool} (hchain : TimesRise chain)
    (h : checkBlockHeaderContext c false skipCheckpoint header chain = .ok ()) :
    TimesRise (header :: chain) := by
  simp only [checkBlockHeaderContext, bind_eq_ok, exists_unit, checkWhen_eq_ok] at h
  have hwork := h.1 rfl
  simp only [checkHeaderWork, bind_eq_ok, exists_unit, rejectIf_eq_ok] at hwork
  obtain ⟨_, _, _, htime, _⟩ := hwork
  exact ⟨fun _ => not_le.mp htime, hchain⟩

theorem countP_windowTimes_le {m : Int} (h : m ≤ header.timestamp) :
    (windowTimes (header :: chain)).countP (· < m) ≤ (windowTimes chain).countP (· < m) := by
  have hslide : windowTimes (header :: chain) =
      header.timestamp :: (chain.take 10).map HeaderInfo.timestamp := rfl
  have hsub : ((chain.take 10).map HeaderInfo.timestamp).Sublist (windowTimes chain) :=
    (take_sublist_take_left (by decide)).map _
  rw [hslide, countP_cons_of_neg (by simpa using h)]
  exact hsub.countP_le

theorem median_step (hne : chain ≠ []) (h : calcPastMedianTime chain < header.timestamp) :
    calcPastMedianTime chain ≤ calcPastMedianTime (header :: chain) := by
  refine upperMedian_mono (upperMedian_windowTimes hne)
    (upperMedian_windowTimes (cons_ne_nil header chain)) ?_ (countP_windowTimes_le h.le)
  rw [length_windowTimes, length_windowTimes, length_cons]
  omega

theorem TimesRise.of_suffix {older : List HeaderInfo} (h : TimesRise chain)
    (hsuffix : older <:+ chain) : TimesRise older := by
  induction chain with
  | nil =>
    rw [suffix_nil.mp hsuffix]
    trivial
  | cons header parents ih =>
    rcases suffix_cons_iff.mp hsuffix with rfl | hsuffix
    · exact h
    · exact ih h.2 hsuffix

theorem TimesRise.median_mono {older : List HeaderInfo} (h : TimesRise chain)
    (hsuffix : older <:+ chain) (hne : older ≠ []) :
    calcPastMedianTime older ≤ calcPastMedianTime chain := by
  induction chain with
  | nil => exact absurd (suffix_nil.mp hsuffix) hne
  | cons header parents ih =>
    rcases suffix_cons_iff.mp hsuffix with rfl | hsuffix
    · exact le_rfl
    · have hparents : parents ≠ [] := fun hnil => hne (suffix_nil.mp (hnil ▸ hsuffix))
      exact (ih h.2 hsuffix).trans (median_step hparents (h.1 hparents))

/-- The median time of every block is at least that of its parent. -/
theorem median_time_never_back (h : TimesRise chain) {header : HeaderInfo}
    {parents : List HeaderInfo} (hblock : header :: parents <:+ chain) (hparent : parents ≠ []) :
    calcPastMedianTime parents ≤ calcPastMedianTime (header :: parents) :=
  (h.of_suffix hblock).median_mono (suffix_cons header parents) hparent

/-- Four blocks near genesis, each later than the median of its parent only. -/
def risingChain : List HeaderInfo :=
  [⟨4, 1, 601, 0⟩, ⟨3, 1, 1200, 0⟩, ⟨2, 1, 600, 0⟩, ⟨1, 1, 0, 0⟩]

/-- The last block is earlier than its parent; the median stays. -/
theorem median_of_rising : calcPastMedianTime risingChain.tail ≤ calcPastMedianTime risingChain :=
  median_time_never_back (show TimesRise risingChain by decide) suffix_rfl (by decide)

end FalconDraw.Chain
