import LoadGen.Histogram
import Mathlib.Data.Nat.Log
import Mathlib.Tactic.Ring

namespace LoadGen.Histogram

section Bins

variable {b bin rank seen : Nat} {bins : List (Nat × Nat)}

/-- How many values lie in the bins up to a place. -/
def countUpTo (b : Nat) : List (Nat × Nat) → Nat
  | [] => 0
  | (bin, n) :: rest => (if bin ≤ b then n else 0) + countUpTo b rest

/-- The bins stand in increasing order. -/
def Ascends (bins : List (Nat × Nat)) : Prop := bins.Pairwise (·.1 < ·.1)

theorem countUpTo_countBin (b bin : Nat) (bins : List (Nat × Nat)) :
    countUpTo b (countBin bin bins) = countUpTo b bins + if bin ≤ b then 1 else 0 := by
  induction bins with
  | nil => simp [countBin, countUpTo]
  | cons head rest ih =>
    obtain ⟨other, n⟩ := head
    unfold countBin
    split
    next => simp [countUpTo, Nat.add_comm]
    next =>
      split
      next same =>
        subst same
        simp only [countUpTo]
        split <;> omega
      next =>
        simp only [countUpTo, ih]
        omega

theorem size_countBin (bin : Nat) (bins : List (Nat × Nat)) :
    total ((countBin bin bins).map (·.2)) = total (bins.map (·.2)) + 1 := by
  induction bins with
  | nil => rfl
  | cons head rest ih =>
    obtain ⟨other, n⟩ := head
    simp only [total] at ih
    unfold countBin
    split
    next => simp [total, Nat.add_comm]
    next =>
      split
      next => simp [total, Nat.add_right_comm]
      next => simp [total, ih, Nat.add_assoc]

theorem mem_countBin {entry : Nat × Nat} (mem : entry ∈ countBin bin bins) :
    entry.1 = bin ∨ ∃ old ∈ bins, old.1 = entry.1 := by
  induction bins with
  | nil =>
    obtain rfl := List.mem_singleton.mp mem
    exact Or.inl rfl
  | cons head rest ih =>
    obtain ⟨other, n⟩ := head
    unfold countBin at mem
    split at mem
    next =>
      rcases List.mem_cons.mp mem with rfl | old
      · exact Or.inl rfl
      · exact Or.inr ⟨entry, old, rfl⟩
    next =>
      split at mem
      next same =>
        rcases List.mem_cons.mp mem with rfl | old
        · exact Or.inl same.symm
        · exact Or.inr ⟨entry, List.mem_cons_of_mem _ old, rfl⟩
      next =>
        rcases List.mem_cons.mp mem with rfl | later
        · exact Or.inr ⟨_, List.mem_cons_self, rfl⟩
        · exact (ih later).imp_right fun ⟨old, there, same⟩ =>
            ⟨old, List.mem_cons_of_mem _ there, same⟩

theorem Ascends.countBin (ascends : Ascends bins) (bin : Nat) :
    Ascends (countBin bin bins) := by
  induction bins with
  | nil => exact List.pairwise_singleton _ _
  | cons head rest ih =>
    obtain ⟨other, n⟩ := head
    obtain ⟨first, tail⟩ := List.pairwise_cons.mp ascends
    unfold Histogram.countBin
    split
    next less =>
      refine List.pairwise_cons.mpr ⟨fun entry mem => ?_, ascends⟩
      rcases List.mem_cons.mp mem with rfl | later
      · exact less
      · exact lt_trans less (first entry later)
    next not_less =>
      split
      next => exact List.pairwise_cons.mpr ⟨first, tail⟩
      next differs =>
        refine List.pairwise_cons.mpr ⟨fun entry mem => ?_, ih tail⟩
        change other < entry.1
        rcases mem_countBin mem with same | ⟨old, there, same⟩
        · omega
        · exact same ▸ first old there

/-- The bin of a rank is one of the bins, and the values up to it reach the rank. -/
theorem rank_le_countUpTo (ascends : Ascends bins) (found : binOfRank? rank seen bins = some b) :
    (∃ entry ∈ bins, entry.1 = b) ∧ rank ≤ seen + countUpTo b bins := by
  induction bins generalizing seen with
  | nil => cases found
  | cons head rest ih =>
    obtain ⟨bin, n⟩ := head
    obtain ⟨first, tail⟩ := List.pairwise_cons.mp ascends
    unfold binOfRank? at found
    split at found
    next reached =>
      cases found
      refine ⟨⟨_, List.mem_cons_self, rfl⟩, ?_⟩
      rw [countUpTo, if_pos le_rfl]
      omega
    next =>
      obtain ⟨⟨entry, mem, same⟩, reaches⟩ := ih tail found
      have before : bin < entry.1 := first entry mem
      refine ⟨⟨entry, List.mem_cons_of_mem _ mem, same⟩, ?_⟩
      rw [countUpTo, if_pos (by omega)]
      omega

/-- Every rank up to the count of the values has its bin. -/
theorem isSome_binOfRank (more : seen < rank) (enough : rank ≤ seen + total (bins.map (·.2))) :
    (binOfRank? rank seen bins).isSome := by
  induction bins generalizing seen with
  | nil =>
    simp only [List.map_nil, total, List.foldr_nil] at enough
    omega
  | cons head rest ih =>
    obtain ⟨bin, n⟩ := head
    unfold binOfRank?
    split
    next => rfl
    next not_reached =>
      simp only [total, List.map_cons, List.foldr_cons] at ih enough
      exact ih (by omega) (by omega)

end Bins

section Values

variable {h : Histogram} {v v' b : Nat}

theorem doublings_mono (le : v ≤ v') : h.doublings v ≤ h.doublings v' := by
  unfold doublings
  rw [Nat.shiftRight_eq_div_pow, Nat.shiftRight_eq_div_pow, Nat.log2_eq_log_two,
    Nat.log2_eq_log_two]
  exact Nat.sub_le_sub_right (Nat.log_mono_right (Nat.div_le_div_right le)) 10

theorem lowest_eq (h : Histogram) (v : Nat) :
    h.lowest v = v / 2 ^ h.widthLog v * 2 ^ h.widthLog v := by
  unfold lowest
  rw [Nat.shiftRight_eq_div_pow, Nat.shiftLeft_eq]

theorem le_highest (h : Histogram) (v : Nat) : v ≤ h.highest v := by
  have parts := Nat.div_add_mod v (2 ^ h.widthLog v)
  have rest := Nat.mod_lt v (Nat.two_pow_pos (h.widthLog v))
  unfold highest
  rw [lowest_eq, Nat.one_shiftLeft, Nat.mul_comm]
  omega

/-- Cutting off the last binary digits of a number leaves the first one. -/
theorem log_div_mul {x d : Nat} (inside : d ≤ Nat.log 2 x) :
    Nat.log 2 (x / 2 ^ d * 2 ^ d) = Nat.log 2 x := by
  by_cases zero : x = 0
  · rw [zero, Nat.zero_div, Nat.zero_mul]
  · refine Nat.log_eq_of_pow_le_of_lt_pow ?_ ?_
    · have least := Nat.pow_log_le_self 2 zero
      obtain ⟨more, split⟩ := Nat.exists_eq_add_of_le inside
      rw [split, Nat.add_comm, Nat.pow_add] at least ⊢
      exact Nat.mul_le_mul_right _ ((Nat.le_div_iff_mul_le (Nat.two_pow_pos d)).mpr least)
    · exact lt_of_le_of_lt (Nat.div_mul_le_self _ _) (Nat.lt_pow_succ_log_self (by decide) x)

/-- The least value of a bin has the width of the bin. -/
theorem doublings_lowest (h : Histogram) (v : Nat) :
    h.doublings (h.lowest v) = h.doublings v := by
  have cut : h.lowest v / 2 ^ h.unit = v / 2 ^ h.unit / 2 ^ h.doublings v * 2 ^ h.doublings v := by
    rw [lowest_eq, widthLog, Nat.pow_add, ← Nat.div_div_eq_div_mul, Nat.mul_comm (2 ^ h.unit),
      ← Nat.mul_assoc, Nat.mul_div_cancel _ (Nat.two_pow_pos _)]
  unfold doublings at cut ⊢
  rw [Nat.shiftRight_eq_div_pow, Nat.shiftRight_eq_div_pow, Nat.log2_eq_log_two,
    Nat.log2_eq_log_two] at *
  rw [cut, log_div_mul (Nat.sub_le _ _)]

/-- A value whose bin does not begin after another value is at most the greatest one that looks
like the other. -/
theorem le_highest_of_lowest_le (le : h.lowest v ≤ b) : v ≤ h.highest b := by
  by_cases before : v ≤ b
  · exact le_trans before (h.le_highest b)
  · -- The other value lies in the same bin.
    have width : h.doublings b = h.doublings v := by
      refine Nat.le_antisymm (doublings_mono (by omega)) ?_
      rw [← doublings_lowest h v]
      exact doublings_mono le
    have same : h.widthLog b = h.widthLog v := congrArg (h.unit + ·) width
    have place : b / 2 ^ h.widthLog v = v / 2 ^ h.widthLog v := by
      refine Nat.le_antisymm (Nat.div_le_div_right (by omega)) ?_
      rw [Nat.le_div_iff_mul_le (Nat.two_pow_pos _), ← lowest_eq]
      exact le
    have bins : h.highest b = h.highest v := by
      unfold highest
      rw [lowest_eq, lowest_eq, same, place]
    rw [bins]
    exact h.le_highest v

theorem lt_of_held (saturates : h.held v ≠ v) : h.held v = h.high ∧ h.high < v := by
  unfold held at saturates ⊢
  split at saturates
  next => exact absurd rfl saturates
  next beyond =>
    rw [if_neg beyond]
    refine ⟨rfl, Nat.lt_of_not_le fun le => beyond (doublings_mono le)⟩

end Values

section Records

variable {h : Histogram}

theorem range_foldl (h : Histogram) (times : List Nat) :
    (times.foldl record h).low = h.low ∧ (times.foldl record h).high = h.high := by
  induction times generalizing h with
  | nil => exact ⟨rfl, rfl⟩
  | cons t rest ih => exact ih (h.record t)

theorem highest_of_low {h' : Histogram} (low : h'.low = h.low) (v : Nat) :
    h'.highest v = h.highest v := by
  unfold highest lowest widthLog doublings unit
  rw [low]

theorem ascends_foldl (ascends : Ascends h.bins) (times : List Nat) :
    Ascends (times.foldl record h).bins := by
  induction times generalizing h with
  | nil => exact ascends
  | cons t rest ih => exact ih (h := h.record t) (ascends.countBin _)

theorem size_foldl (h : Histogram) (times : List Nat) :
    (times.foldl record h).size = h.size + times.length := by
  induction times generalizing h with
  | nil => rfl
  | cons t rest ih =>
    have grown : (h.record t).size = h.size + 1 := size_countBin _ _
    rw [List.foldl_cons, ih, grown, List.length_cons]
    omega

/-- The values up to a bin are those whose own bin is not a later one. -/
theorem countUpTo_foldl (h : Histogram) (times : List Nat) (b : Nat) :
    countUpTo b (times.foldl record h).bins =
      countUpTo b h.bins + times.countP fun t => decide (h.lowest (h.held t) ≤ b) := by
  induction times generalizing h with
  | nil => rfl
  | cons t rest ih =>
    have grown : countUpTo b (h.record t).bins =
        countUpTo b h.bins + if h.lowest (h.held t) ≤ b then 1 else 0 := countUpTo_countBin _ _ _
    rw [List.foldl_cons, ih, grown, List.countP_cons]
    simp only [decide_eq_true_eq]
    change _ + rest.countP (fun t => decide (h.lowest (h.held t) ≤ b)) = _
    omega

/-- As many values as the rank of a quantile says do not exceed it, once they are held within the
range of the histogram. -/
theorem rank_le_countP (fresh : h.bins = []) (times : List Nat) {q : Binary64}
    (nonzero : q.magnitude ≠ 0) (enough : (times.foldl record h).rankOf q ≤ times.length) :
    (times.foldl record h).rankOf q ≤
      times.countP fun t => decide (h.held t ≤ (times.foldl record h).quantile q) := by
  have ascends : Ascends (times.foldl record h).bins :=
    ascends_foldl (fresh ▸ List.Pairwise.nil) times
  have positive : 0 < (times.foldl record h).rankOf q := Nat.lt_of_lt_of_le Nat.one_pos
    (Nat.le_max_right _ _)
  have all : total ((times.foldl record h).bins.map (·.2)) = times.length := by
    have counted : total ((times.foldl record h).bins.map (·.2)) =
        total (h.bins.map (·.2)) + times.length := size_foldl h times
    rw [counted, fresh]
    exact Nat.zero_add _
  have there : (binOfRank? _ 0 (times.foldl record h).bins).isSome :=
    isSome_binOfRank positive (by omega)
  obtain ⟨b, found⟩ := Option.isSome_iff_exists.mp there
  obtain ⟨-, reaches⟩ := rank_le_countUpTo ascends found
  rw [countUpTo_foldl, fresh] at reaches
  simp only [countUpTo, Nat.zero_add] at reaches
  refine le_trans reaches (List.countP_mono_left fun t _ below => ?_)
  have within : h.held t ≤ h.highest b := le_highest_of_lowest_le (of_decide_eq_true below)
  have measured : (times.foldl record h).quantile q = h.highest b := by
    unfold quantile
    rw [found]
    dsimp only
    rw [if_neg nonzero, highest_of_low (range_foldl h times).1]
  rw [measured]
  exact decide_eq_true within

end Records

end LoadGen.Histogram
