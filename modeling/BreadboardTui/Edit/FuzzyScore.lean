import BreadboardTui.Hashline.Tokenizer
import BreadboardTui.Lib.EditDistance

/-!
# Scores of fuzzy matches

The fuzzy pass of `seekSequence` and `findClosestSequenceMatch` score the positions of a pattern in
normalized lines. `fuzzyScoreAt` stops early where the score cannot reach a bound any more.

* `levenshteinDistance_isLeast`: what `levenshteinDistance` computes is the edit distance.
* `between_levenshteinDistance`: it lies between the difference of the lengths and the larger one,
  which is all that the bounds of `fuzzyScoreAt` rely on.
-/

namespace BreadboardTui.Edit

open List Hashline

/-! ### The distance -/

/-- A row behind its first entry, from the row above: `diagonal` and `left` are the entries beside
the next one. -/
def nextEntries (aCode : ℕ) (diagonal left : ℕ) : Units → List ℕ → List ℕ
  | bCode :: b, above :: row =>
    let entry := if aCode = bCode then diagonal else min (min (above + 1) (left + 1)) (diagonal + 1)
    entry :: nextEntries aCode above entry b row
  | _, _ => []

/-- The rows of the table, one for each code unit of `a`, and the last entry. -/
def lastEntry (b : Units) (line : ℕ) : Units → List ℕ → ℕ
  | [], row => row.getLastD line
  | aCode :: a, row => lastEntry b (line + 1) a (nextEntries aCode line (line + 1) b row)

/-- The texts without what they begin with alike. -/
def dropShared : Units → Units → Units × Units
  | a :: as, b :: bs => if a = b then dropShared as bs else (a :: as, b :: bs)
  | as, bs => (as, bs)

/-- The distance of the texts between what they share, with the rows on the shorter one. -/
def middleDistance (a b : Units) : ℕ :=
  if a = [] then b.length
  else if b = [] then a.length
  else if a.length < b.length then lastEntry a 0 b (range' 1 a.length)
  else lastEntry b 0 a (range' 1 b.length)

def levenshteinDistance (a b : Units) : ℕ :=
  if a = b then 0
  else
    let front := dropShared a b
    let back := dropShared front.1.reverse front.2.reverse
    middleDistance back.1.reverse back.2.reverse

/-- The distances of `front`, the beginning of a text backwards, from longer and longer beginnings
of another one, also backwards. -/
def rowDistances (front : Units) : Units → Units → List ℕ
  | _, [] => []
  | other, bCode :: b =>
    editDistance front (bCode :: other) :: rowDistances front (bCode :: other) b

theorem nextEntries_rowDistances (aCode : ℕ) (front other b : Units) :
    nextEntries aCode (editDistance front other) (editDistance (aCode :: front) other) b
      (rowDistances front other b) = rowDistances (aCode :: front) other b := by
  induction b generalizing other with
  | nil => rfl
  | cons bCode b ih =>
    have hentry : (if aCode = bCode then editDistance front other else
        min (min (editDistance front (bCode :: other) + 1)
          (editDistance (aCode :: front) other + 1)) (editDistance front other + 1)) =
        editDistance (aCode :: front) (bCode :: other) := by
      split
      · next heq => rw [heq, editDistance_cons_self]
      · next hne => rw [editDistance, if_neg hne]
    rw [rowDistances, nextEntries, hentry, ih, ← rowDistances]

theorem getLastD_rowDistances (front other b : Units) :
    (rowDistances front other b).getLastD (editDistance front other) =
      editDistance front (b.reverse ++ other) := by
  induction b generalizing other with
  | nil => rfl
  | cons bCode b ih =>
    rw [rowDistances, getLastD_cons, ih, reverse_cons, append_assoc, singleton_append]

theorem lastEntry_rowDistances (a b front : Units) :
    lastEntry b front.length a (rowDistances front [] b) =
      editDistance (a.reverse ++ front) b.reverse := by
  induction a generalizing front with
  | nil => rw [lastEntry, ← editDistance_nil_right, getLastD_rowDistances, append_nil]; rfl
  | cons aCode a ih =>
    have hnext := nextEntries_rowDistances aCode front [] b
    rw [editDistance_nil_right, editDistance_nil_right] at hnext
    rw [lastEntry, ← length_cons, hnext, ih, reverse_cons, append_assoc, singleton_append]

theorem rowDistances_nil (b other : Units) :
    rowDistances [] other b = range' (other.length + 1) b.length := by
  induction b generalizing other with
  | nil => rfl
  | cons bCode b ih => rw [rowDistances, ih, editDistance]; rfl

theorem middleDistance_eq (a b : Units) : middleDistance a b = editDistance a b := by
  have htable (a b : Units) : lastEntry b 0 a (range' 1 b.length) = editDistance a b := by
    have hlast := lastEntry_rowDistances a b []
    rwa [rowDistances_nil, append_nil, editDistance_reverse] at hlast
  rw [middleDistance]
  split
  · next h => rw [h, editDistance]
  split
  · next h => rw [h, editDistance_nil_right]
  split
  · rw [htable, editDistance_comm]
  · exact htable a b

theorem editDistance_dropShared (a b : Units) :
    editDistance (dropShared a b).1 (dropShared a b).2 = editDistance a b := by
  induction a generalizing b with
  | nil => rfl
  | cons x a ih =>
    cases b with
    | nil => rfl
    | cons =>
      rw [dropShared]
      split
      · next heq => rw [ih, heq, editDistance_cons_self]
      · rfl

/-- The entries of a row have 32 bits, which is enough where the lengths are below `2 ^ 32`. -/
theorem le_of_mem_rowDistances {front other b : Units} {entry : ℕ}
    (h : entry ∈ rowDistances front other b) :
    entry ≤ max front.length (other.length + b.length) := by
  induction b generalizing other with
  | nil => cases h
  | cons bCode b ih =>
    rw [length_cons]
    rcases mem_cons.mp h with rfl | h
    · have hle := (editDistance_bounds front (bCode :: other)).2.2
      rw [length_cons] at hle
      omega
    · have hle := ih h
      rw [length_cons] at hle
      omega

theorem levenshteinDistance_eq (a b : Units) : levenshteinDistance a b = editDistance a b := by
  rw [levenshteinDistance]
  split
  · next h =>
    subst h
    have hself (a : Units) : editDistance a a = 0 := by
      induction a with
      | nil => rw [editDistance]; rfl
      | cons x a ih => rw [editDistance_cons_self, ih]
    exact (hself a).symm
  · rw [middleDistance_eq, editDistance_reverse, editDistance_dropShared, editDistance_reverse,
      editDistance_dropShared]

/-- The distance is that of the recursion on the whole texts: the least number of insertions,
deletions and substitutions of single units. -/
theorem levenshteinDistance_isLeast (a b : Units) : levenshteinDistance a b = editDistance a b ∧
      IsLeast {n | Turns n a b} (levenshteinDistance a b) :=
  ⟨levenshteinDistance_eq a b, levenshteinDistance_eq a b ▸ isLeast_editDistance a b⟩

/-- What the entry of a line and a column lies between. -/
def Between (line column entry : ℕ) : Prop :=
  line ≤ column + entry ∧ column ≤ line + entry ∧ entry ≤ max line column

/-- The distance is at least the difference of the lengths, and at most the larger one. -/
theorem between_levenshteinDistance (a b : Units) :
    Between a.length b.length (levenshteinDistance a b) :=
  levenshteinDistance_eq a b ▸ editDistance_bounds a b

/-! ### Scores -/

def similarity (a b : Units) : ℚ :=
  if max a.length b.length = 0 then 1
  else 1 - (levenshteinDistance a b : ℚ) / (max a.length b.length : ℕ)

/-- The loop of `fuzzyScoreAt`, from the total of the lines before. -/
def scoreLines (count : ℕ) (minScore totalScore : ℚ) : List Units → List Units → ℚ
  | lineNorm :: lines, patNorm :: pattern =>
    if lineNorm = patNorm then scoreLines count minScore (totalScore + 1) lines pattern
    else
      let remaining : ℚ := pattern.length
      let maxLen : ℚ := (max lineNorm.length patNorm.length : ℕ)
      let upperBound := 1 - |(lineNorm.length : ℚ) - patNorm.length| / maxLen
      if (totalScore + upperBound + remaining) / count < minScore then totalScore / count
      else
        let totalScore :=
          if 0 < upperBound then totalScore + similarity lineNorm patNorm else totalScore
        if (totalScore + remaining) / count < minScore then totalScore / count
        else scoreLines count minScore totalScore lines pattern
  | _, _ => totalScore / count

def fuzzyScoreAt (linesNorm patternNorm : List Units) (i : ℕ) (minScore : ℚ) : ℚ :=
  scoreLines patternNorm.length minScore 0 (linesNorm.drop i) patternNorm

/-- The sum of the similarities. -/
def totalSimilarity (lines pattern : List Units) : ℚ := (zipWith similarity lines pattern).sum

/-- The full average. -/
def averageSimilarity (linesNorm patternNorm : List Units) (i : ℕ) : ℚ :=
  totalSimilarity (linesNorm.drop i) patternNorm / patternNorm.length

theorem similarity_self (a : Units) : similarity a a = 1 := by
  rw [similarity, levenshteinDistance, if_pos rfl, Nat.cast_zero, zero_div, sub_zero, ite_self]

/-- The similarity is no less than zero, and no more than what the lengths allow. -/
theorem similarity_bounds {a b : Units} (h : a ≠ b) : 0 ≤ similarity a b ∧
    similarity a b ≤ 1 - |(a.length : ℚ) - b.length| / (max a.length b.length : ℕ) := by
  have hne : max a.length b.length ≠ 0 := by
    intro hzero
    have ha : a = [] := length_eq_zero_iff.mp (by omega)
    have hb : b = [] := length_eq_zero_iff.mp (by omega)
    exact h (ha.trans hb.symm)
  obtain ⟨hle, hge, hmax⟩ := between_levenshteinDistance a b
  have hpos : (0 : ℚ) < (max a.length b.length : ℕ) := by exact_mod_cast Nat.pos_of_ne_zero hne
  have hle : (a.length : ℚ) ≤ b.length + levenshteinDistance a b := by exact_mod_cast hle
  have hge : (b.length : ℚ) ≤ a.length + levenshteinDistance a b := by exact_mod_cast hge
  have hmax : (levenshteinDistance a b : ℚ) ≤ (max a.length b.length : ℕ) := by exact_mod_cast hmax
  rw [similarity, if_neg hne]
  refine ⟨sub_nonneg.mpr ((div_le_one hpos).mpr hmax), sub_le_sub_left ?_ 1⟩
  exact div_le_div_of_nonneg_right (abs_le.mpr ⟨by linarith, by linarith⟩) hpos.le

theorem totalSimilarity_bounds (lines pattern : List Units) :
    0 ≤ totalSimilarity lines pattern ∧ totalSimilarity lines pattern ≤ pattern.length := by
  induction pattern generalizing lines with
  | nil => simp [totalSimilarity]
  | cons pat pattern ih =>
    cases lines with
    | nil =>
      refine ⟨le_of_eq (by simp [totalSimilarity]), ?_⟩
      simp only [totalSimilarity, zipWith_nil_left, sum_nil]
      positivity
    | cons line lines =>
      obtain ⟨hnonneg, hle⟩ := ih lines
      have hline : 0 ≤ similarity line pat ∧ similarity line pat ≤ 1 := by
        by_cases heq : line = pat
        · rw [heq, similarity_self]
          exact ⟨zero_le_one, le_rfl⟩
        obtain ⟨hzero, hbound⟩ := similarity_bounds heq
        have hdiv : (0 : ℚ) ≤ |(line.length : ℚ) - pat.length| /
          (max line.length pat.length : ℕ) := by positivity
        exact ⟨hzero, by linarith⟩
      simp only [totalSimilarity, zipWith_cons_cons, sum_cons, length_cons, Nat.cast_add,
        Nat.cast_one] at hnonneg hle ⊢
      exact ⟨by linarith, by linarith⟩

/-- The loop gives the full score, or both are below the bound. -/
theorem scoreLines_cases {count : ℕ} (hcount : 0 < count) (minScore totalScore : ℚ)
    (lines pattern : List Units) :
    let full := (totalScore + totalSimilarity lines pattern) / count
    scoreLines count minScore totalScore lines pattern = full ∨
      scoreLines count minScore totalScore lines pattern < minScore ∧ full < minScore := by
  have hpos : (0 : ℚ) < count := by exact_mod_cast hcount
  -- a total that is short of the bound, with all that may come, is short of it
  have hshort {total rest most : ℚ} (hrest : 0 ≤ rest) (hmost : rest ≤ most)
      (h : (total + most) / count < minScore) :
      total / count < minScore ∧ (total + rest) / count < minScore := by
    rw [div_lt_iff₀ hpos] at h
    exact ⟨(div_lt_iff₀ hpos).mpr (by linarith), (div_lt_iff₀ hpos).mpr (by linarith)⟩
  induction pattern generalizing lines totalScore with
  | nil =>
    refine .inl ?_
    rw [scoreLines, totalSimilarity, zipWith_nil_right, sum_nil, add_zero]
    exact fun _ _ _ _ _ h => nomatch h
  | cons pat pattern ih =>
    cases lines with
    | nil =>
      refine .inl ?_
      rw [scoreLines, totalSimilarity, zipWith_nil_left, sum_nil, add_zero]
      exact fun _ _ _ _ h => nomatch h
    | cons line lines =>
      obtain ⟨hnonneg, hle⟩ := totalSimilarity_bounds lines pattern
      have htotal : totalScore + totalSimilarity (line :: lines) (pat :: pattern) =
          totalScore + similarity line pat + totalSimilarity lines pattern := by
        rw [totalSimilarity, zipWith_cons_cons, sum_cons, ← totalSimilarity, add_assoc]
      rw [htotal, scoreLines]
      split
      · next heq =>
        rw [heq, similarity_self]
        exact ih (totalScore + 1) lines
      next heq =>
      obtain ⟨hzero, hbound⟩ := similarity_bounds heq
      dsimp only
      split
      · next h =>
        rw [add_assoc totalScore] at h ⊢
        exact .inr (hshort (by linarith) (by linarith) h)
      have hadded : (if 0 < 1 - |(line.length : ℚ) - pat.length| /
          (max line.length pat.length : ℕ) then totalScore + similarity line pat
          else totalScore) = totalScore + similarity line pat := by
        split
        · rfl
        · linarith
      rw [hadded]
      split
      · next h => exact .inr (hshort hnonneg hle h)
      · exact ih (totalScore + similarity line pat) lines

variable (linesNorm : List Units) (pat : Units) (pattern : List Units)

/-- Stopping early does not lift or lower a score that reaches the bound. -/
theorem fuzzyScoreAt_cases (i : ℕ) (minScore : ℚ) :
    fuzzyScoreAt linesNorm (pat :: pattern) i minScore =
        averageSimilarity linesNorm (pat :: pattern) i ∨
      fuzzyScoreAt linesNorm (pat :: pattern) i minScore < minScore ∧
        averageSimilarity linesNorm (pat :: pattern) i < minScore := by
  have hcases := @scoreLines_cases (pat :: pattern).length (Nat.succ_pos _) minScore 0
    (linesNorm.drop i) (pat :: pattern)
  rwa [zero_add] at hcases

/-! ### The fuzzy pass -/

def SEQUENCE_FUZZY_THRESHOLD : ℚ := 92 / 100

def DOMINANT_FUZZY_MIN_CONFIDENCE : ℚ := 97 / 100

def DOMINANT_FUZZY_DELTA : ℚ := 8 / 100

def MAX_RECORDED_MATCHES : ℕ := 5

def fuzzyBail : ℚ := SEQUENCE_FUZZY_THRESHOLD - DOMINANT_FUZZY_DELTA

/-- The positions in the order of the scan: from the last one on at the end of the file. -/
def scanOrder (lines pattern start : ℕ) (eof : Bool) : List ℕ :=
  if lines < pattern then []
  else
    let maxStart := lines - pattern
    let searchStart := if eof then maxStart else start
    range' searchStart (maxStart + 1 - searchStart) ++
      if eof = true ∧ start < searchStart then range' start (searchStart - start) else []

structure FuzzyPass where
  bestScore : ℚ := 0
  secondBestScore : ℚ := 0
  bestIndex : Option ℕ := none
  firstMatch : Option ℕ := none
  matchCount : ℕ := 0
  matchIndices : List ℕ := []
  deriving DecidableEq, Repr

/-- What is kept of the matches. -/
def FuzzyPass.recorded (pass : FuzzyPass) : Option ℕ × ℕ × List ℕ :=
  (pass.firstMatch, pass.matchCount, pass.matchIndices)

/-- The body of `scoreFuzzyRange`. -/
def FuzzyPass.scorePosition (score : ℕ → ℚ) (pass : FuzzyPass) (i : ℕ) : FuzzyPass :=
  let pass :=
    if SEQUENCE_FUZZY_THRESHOLD ≤ score i then
      { pass with
        firstMatch := pass.firstMatch.or (some i)
        matchCount := pass.matchCount + 1
        matchIndices :=
          if pass.matchIndices.length < MAX_RECORDED_MATCHES then pass.matchIndices ++ [i]
          else pass.matchIndices }
    else pass
  if pass.bestScore < score i then
    { pass with secondBestScore := pass.bestScore, bestScore := score i, bestIndex := some i }
  else if pass.secondBestScore < score i then { pass with secondBestScore := score i }
  else pass

inductive SequenceMatchStrategy where
  | fuzzy
  | fuzzyDominant
  deriving DecidableEq, Repr

structure SequenceSearchResult where
  index : ℕ
  confidence : ℚ
  matchCount : ℕ
  matchIndices : List ℕ
  strategy : SequenceMatchStrategy
  deriving DecidableEq, Repr

/-- The result of the pass, if it has one. -/
def FuzzyPass.result (pass : FuzzyPass) : Option SequenceSearchResult :=
  match pass.bestIndex with
  | none => none
  | some index =>
    if SEQUENCE_FUZZY_THRESHOLD ≤ pass.bestScore then
      if 1 < pass.matchCount ∧ DOMINANT_FUZZY_MIN_CONFIDENCE ≤ pass.bestScore ∧
          DOMINANT_FUZZY_DELTA ≤ pass.bestScore - pass.secondBestScore then
        some ⟨index, pass.bestScore, 1, pass.matchIndices, .fuzzyDominant⟩
      else some ⟨index, pass.bestScore, pass.matchCount, pass.matchIndices, .fuzzy⟩
    else none

/-- The fuzzy pass with given scores. -/
def fuzzyPass (score : ℕ → ℚ) (positions : List ℕ) : Option SequenceSearchResult :=
  (positions.foldl (FuzzyPass.scorePosition score) {}).result

/-- The fuzzy pass of `seekSequence`. -/
def seekSequenceFuzzy (linesNorm patternNorm : List Units) (start : ℕ) (eof : Bool) :
    Option SequenceSearchResult :=
  fuzzyPass (fun i => fuzzyScoreAt linesNorm patternNorm i fuzzyBail)
    (scanOrder linesNorm.length patternNorm.length start eof)

/-- Scores that are equal, or both too low to matter. -/
def SameScore (x y : ℚ) : Prop := x = y ∨ x < fuzzyBail ∧ y < fuzzyBail

theorem SameScore.max {x y z w : ℚ} (h : SameScore x y) (h' : SameScore z w) :
    SameScore (max x z) (max y w) := by
  unfold SameScore at *
  grind

/-- Passes that have seen the same scores, but for those that do not matter. -/
structure SamePass (s t : FuzzyPass) : Prop where
  recorded : s.recorded = t.recorded
  ordered : s.secondBestScore ≤ s.bestScore ∧ t.secondBestScore ≤ t.bestScore
  best : (s.bestScore = t.bestScore ∧ s.bestIndex = t.bestIndex ∧
      SameScore s.secondBestScore t.secondBestScore) ∨
    s.bestScore < fuzzyBail ∧ t.bestScore < fuzzyBail

section Position

variable (score : ℕ → ℚ) (pass : FuzzyPass) (i : ℕ)

theorem scorePosition_recorded : (pass.scorePosition score i).recorded =
    if SEQUENCE_FUZZY_THRESHOLD ≤ score i then
      (pass.firstMatch.or (some i), pass.matchCount + 1,
        if pass.matchIndices.length < MAX_RECORDED_MATCHES then pass.matchIndices ++ [i]
        else pass.matchIndices)
    else pass.recorded := by
  simp only [FuzzyPass.scorePosition, FuzzyPass.recorded]
  split_ifs <;> rfl

theorem scorePosition_bestIndex : (pass.scorePosition score i).bestIndex =
    if pass.bestScore < score i then some i else pass.bestIndex := by
  simp only [FuzzyPass.scorePosition]
  split_ifs <;> rfl

theorem scorePosition_scores : (pass.scorePosition score i).bestScore =
    max pass.bestScore (score i) ∧ (pass.scorePosition score i).secondBestScore =
      if pass.bestScore < score i then pass.bestScore
      else max pass.secondBestScore (score i) := by
  simp only [FuzzyPass.scorePosition]
  constructor <;> split_ifs <;> grind

theorem scorePosition_ordered (h : pass.secondBestScore ≤ pass.bestScore) :
    (pass.scorePosition score i).secondBestScore ≤ (pass.scorePosition score i).bestScore := by
  rw [(scorePosition_scores score pass i).1, (scorePosition_scores score pass i).2]
  split
  · exact le_max_left ..
  · exact max_le_max_right _ h

end Position

theorem SamePass.scorePosition {s t : FuzzyPass} (h : SamePass s t) {score score' : ℕ → ℚ} {i : ℕ}
    (hscore : SameScore (score i) (score' i)) :
    SamePass (s.scorePosition score i) (t.scorePosition score' i) := by
  obtain ⟨hrecorded, hordered, hbest⟩ := h
  have hbail : fuzzyBail < SEQUENCE_FUZZY_THRESHOLD := by
    rw [fuzzyBail, SEQUENCE_FUZZY_THRESHOLD, DOMINANT_FUZZY_DELTA]
    norm_num
  have hmatch : SEQUENCE_FUZZY_THRESHOLD ≤ score i ↔ SEQUENCE_FUZZY_THRESHOLD ≤ score' i := by
    rcases hscore with hscore | hscore
    · rw [hscore]
    · exact iff_of_false (by linarith) (by linarith)
  have hs := scorePosition_scores score s i
  have ht := scorePosition_scores score' t i
  refine ⟨?_, ⟨scorePosition_ordered _ _ _ hordered.1, scorePosition_ordered _ _ _ hordered.2⟩, ?_⟩
  · obtain ⟨hfirst, hrest⟩ := Prod.mk.inj hrecorded
    obtain ⟨hcount, hindices⟩ := Prod.mk.inj hrest
    rw [scorePosition_recorded, scorePosition_recorded, hrecorded, hfirst, hcount, hindices]
    exact if_congr hmatch rfl rfl
  rw [hs.1, hs.2, ht.1, ht.2, scorePosition_bestIndex, scorePosition_bestIndex]
  rcases hbest with ⟨heq, hindex, hsecond⟩ | ⟨hsbest, htbest⟩
  · rcases hscore with hscore | ⟨hx, hy⟩
    · rw [heq, hindex, hscore]
      refine .inl ⟨rfl, rfl, ?_⟩
      split
      · exact .inl rfl
      · exact hsecond.max (.inl rfl)
    · rcases lt_or_ge s.bestScore fuzzyBail with hlow | hhigh
      · exact .inr ⟨max_lt hlow hx, max_lt (heq ▸ hlow) hy⟩
      · rw [heq] at hhigh ⊢
        have hx' := hx.le.trans hhigh
        have hy' := hy.le.trans hhigh
        rw [max_eq_left hx', max_eq_left hy', if_neg hx'.not_gt, if_neg hy'.not_gt, if_neg hx'.not_gt,
          if_neg hy'.not_gt]
        exact .inl ⟨rfl, hindex, hsecond.max (.inr ⟨hx, hy⟩)⟩
  rcases hscore with hscore | ⟨hx, hy⟩
  · rcases lt_or_ge (score i) fuzzyBail with hlow | hhigh
    · exact .inr ⟨max_lt hsbest hlow, max_lt htbest (hscore ▸ hlow)⟩
    · rw [← hscore]
      have hs' := hsbest.trans_le hhigh
      have ht' := htbest.trans_le hhigh
      rw [max_eq_right hs'.le, max_eq_right ht'.le, if_pos hs', if_pos ht', if_pos hs', if_pos ht']
      exact .inl ⟨rfl, rfl, .inr ⟨hsbest, htbest⟩⟩
  · exact .inr ⟨max_lt hsbest hx, max_lt htbest hy⟩

theorem SamePass.result_eq {s t : FuzzyPass} (h : SamePass s t) : s.result = t.result := by
  obtain ⟨hrecorded, -, hbest⟩ := h
  obtain ⟨hcount, hindices⟩ := Prod.mk.inj (Prod.mk.inj hrecorded).2
  rw [FuzzyPass.result, FuzzyPass.result, hcount, hindices]
  rcases hbest with ⟨hscore, hindex, hsecond⟩ | ⟨hs, ht⟩
  · rw [hscore, hindex]
    rcases hsecond with hsecond | ⟨hs, ht⟩
    · rw [hsecond]
    have hdominant (second : ℚ) (h : second < fuzzyBail) :
        (1 < t.matchCount ∧ DOMINANT_FUZZY_MIN_CONFIDENCE ≤ t.bestScore ∧
          DOMINANT_FUZZY_DELTA ≤ t.bestScore - second) ↔
        1 < t.matchCount ∧ DOMINANT_FUZZY_MIN_CONFIDENCE ≤ t.bestScore := by
      refine and_congr_right fun _ => and_iff_left_of_imp fun hconfidence => ?_
      rw [fuzzyBail, SEQUENCE_FUZZY_THRESHOLD, DOMINANT_FUZZY_DELTA] at h
      rw [DOMINANT_FUZZY_MIN_CONFIDENCE] at hconfidence
      rw [DOMINANT_FUZZY_DELTA]
      linarith
    simp [hdominant _ hs, hdominant _ ht]
  have hlow (best : ℚ) (h : best < fuzzyBail) : ¬ SEQUENCE_FUZZY_THRESHOLD ≤ best := by
    rw [fuzzyBail, DOMINANT_FUZZY_DELTA] at h
    linarith
  simp only [hlow _ hs, hlow _ ht, if_false]
  cases s.bestIndex <;> cases t.bestIndex <;> rfl

/-- Stopping early changes nothing in the result of the fuzzy pass. -/
theorem seekSequenceFuzzy_average (start : ℕ) (eof : Bool) :
    seekSequenceFuzzy linesNorm (pat :: pattern) start eof =
      fuzzyPass (averageSimilarity linesNorm (pat :: pattern))
        (scanOrder linesNorm.length (pat :: pattern).length start eof) := by
  refine SamePass.result_eq ?_
  have hscore (i : ℕ) := fuzzyScoreAt_cases linesNorm pat pattern i fuzzyBail
  generalize scanOrder linesNorm.length (pat :: pattern).length start eof = positions
  induction positions using reverseRecOn with
  | nil => exact ⟨rfl, ⟨le_rfl, le_rfl⟩, .inl ⟨rfl, rfl, .inl rfl⟩⟩
  | append_singleton positions i ih =>
    rw [foldl_concat, foldl_concat]
    exact ih.scorePosition (hscore i)

/-! ### The closest position -/

/-- A position and its score, against the best one so far. -/
def closer (score : ℚ → ℕ → ℚ) (best : Option ℕ × ℚ) (i : ℕ) : Option ℕ × ℚ :=
  if best.2 < score best.2 i then (some i, score best.2 i) else best

/-- `findClosestSequenceMatch`: the index and the confidence. -/
def findClosestSequenceMatch (linesNorm patternNorm : List Units) (start : ℕ) (eof : Bool) :
    Option ℕ × ℚ :=
  if patternNorm = [] then (some start, 1)
  else if linesNorm.length < patternNorm.length then (none, 0)
  else
    (scanOrder linesNorm.length patternNorm.length start eof).foldl
      (closer fun bestScore i => fuzzyScoreAt linesNorm patternNorm i bestScore) (none, 0)

/-- The first position of the largest score, and that score; none if every score is zero. -/
structure IsFirstMaximum (score : ℕ → ℚ) (positions : List ℕ) (best : Option ℕ × ℚ) : Prop where
  le : ∀ i ∈ positions, score i ≤ best.2
  first : ∀ i, best.1 = some i → ∃ before after, positions = before ++ i :: after ∧
    score i = best.2 ∧ ∀ j ∈ before, score j < best.2
  none_iff : best.1 = none ↔ ∀ i ∈ positions, score i = 0
  zero : best.1 = none → best.2 = 0

/-- The closest match is at the first position, in the order of the scan, of the largest score. -/
theorem findClosestSequenceMatch_average (start : ℕ) (eof : Bool) :
    IsFirstMaximum (averageSimilarity linesNorm (pat :: pattern))
      (scanOrder linesNorm.length (pat :: pattern).length start eof)
      (findClosestSequenceMatch linesNorm (pat :: pattern) start eof) := by
  have hfold (positions : List ℕ) : IsFirstMaximum (averageSimilarity linesNorm (pat :: pattern))
      positions (positions.foldl (closer fun bestScore i =>
        fuzzyScoreAt linesNorm (pat :: pattern) i bestScore) (none, 0)) := by
    induction positions using reverseRecOn with
    | nil => exact ⟨by simp, by simp, by simp, fun _ => rfl⟩
    | append_singleton positions i ih =>
      rw [foldl_concat]
      generalize positions.foldl _ _ = best at ih ⊢
      obtain ⟨hle, hfirst, hnone, hzero⟩ := ih
      have hnonneg (j : ℕ) : 0 ≤ averageSimilarity linesNorm (pat :: pattern) j :=
        div_nonneg (totalSimilarity_bounds _ _).1 (Nat.cast_nonneg _)
      have hscore := fuzzyScoreAt_cases linesNorm pat pattern i best.2
      rw [closer]
      split
      · next hgreater =>
        obtain hfull := hscore.resolve_right fun h => (h.1.trans hgreater).false
        rw [hfull] at hgreater ⊢
        refine ⟨fun j hj => ?_, fun j hj => ?_, iff_of_false (by simp) fun h => ?_, by simp⟩
        · rcases mem_append.mp hj with hj | hj
          · exact (hle j hj).trans hgreater.le
          · rw [mem_singleton.mp hj]
        · obtain rfl := Option.some.inj hj
          exact ⟨positions, [], rfl, rfl, fun k hk => (hle k hk).trans_lt hgreater⟩
        rw [h i (mem_append_right _ (mem_singleton_self i))] at hgreater
        cases hindex : best.1 with
        | none => exact (hgreater.trans_le (hzero hindex).ge).false
        | some j =>
          obtain ⟨before, after, -, hmax, -⟩ := hfirst j hindex
          exact (hgreater.trans_le (hmax ▸ hnonneg j)).false
      next hle' =>
      have hscorele : averageSimilarity linesNorm (pat :: pattern) i ≤ best.2 := by
        rcases hscore with heq | hlow
        · rw [← heq]
          exact not_lt.mp hle'
        · exact hlow.2.le
      refine ⟨fun j hj => ?_, fun j hj => ?_, ?_, hzero⟩
      · rcases mem_append.mp hj with hj | hj
        · exact hle j hj
        · rw [mem_singleton.mp hj]
          exact hscorele
      · obtain ⟨before, after, rfl, hmax, hbefore⟩ := hfirst j hj
        exact ⟨before, after ++ [i], by simp, hmax, hbefore⟩
      rw [hnone, forall_mem_append, forall_mem_singleton]
      refine (and_iff_left_of_imp fun hall => le_antisymm ?_ (hnonneg i)).symm
      rw [← hzero (hnone.mpr hall)]
      exact hscorele
  rw [findClosestSequenceMatch, if_neg (cons_ne_nil _ _)]
  split
  · next h =>
    rw [scanOrder, if_pos h]
    exact hfold []
  · exact hfold _

/-- Giving up early on a position changes no decision of the two searches. -/
theorem fuzzySearches_average (linesNorm : List Units) (pat : Units) (pattern : List Units)
    (start : ℕ) (eof : Bool) :
    seekSequenceFuzzy linesNorm (pat :: pattern) start eof =
        fuzzyPass (averageSimilarity linesNorm (pat :: pattern))
          (scanOrder linesNorm.length (pat :: pattern).length start eof) ∧
      IsFirstMaximum (averageSimilarity linesNorm (pat :: pattern))
        (scanOrder linesNorm.length (pat :: pattern).length start eof)
        (findClosestSequenceMatch linesNorm (pat :: pattern) start eof) :=
  ⟨seekSequenceFuzzy_average .., findClosestSequenceMatch_average ..⟩

end BreadboardTui.Edit
