import BreadboardTui.Secrets.Placeholder

/-!
# Replacing one text after the other

A replacement pass reads a text from left to right and replaces what it finds without overlaps. The
parts of a text are replaced on their own exactly where no occurrence that is replaced reaches from
one part into the next.
-/

namespace BreadboardTui.Secrets

open List

open Hashline (Units units)

variable {search replacement : Units}

/-! ### Parts that are replaced on their own -/

/-- A pass over `front ++ back` comes to the end of `front`: what it replaces is in one of them. -/
inductive Clean (search : Units) : Units → Units → Prop
  | nil (back : Units) : Clean search [] back
  | skip {code : ℕ} {front back : Units} (h : ¬ search <+: code :: (front ++ back))
      (hrest : Clean search front back) : Clean search (code :: front) back
  | hit {front back : Units} (hrest : Clean search front back) :
      Clean search (search ++ front) back

theorem replaceAll_skip {code : ℕ} {rest : Units} (h : ¬ search <+: code :: rest) :
    replaceAll search replacement (code :: rest) = code :: replaceAll search replacement rest := by
  rw [replaceAll, if_neg]
  exact fun hc => h ( isPrefixOf_iff_prefix.mp hc.2)

theorem replaceAll_hit (hne : search ≠ []) (rest : Units) :
    replaceAll search replacement (search ++ rest) =
      replacement ++ replaceAll search replacement rest := by
  cases search with
  | nil => exact absurd rfl hne
  | cons =>
    rw [cons_append, replaceAll, if_pos, ← cons_append, drop_left]
    exact ⟨cons_ne_nil _ _, isPrefixOf_iff_prefix.mpr ⟨rest, rfl⟩⟩

theorem replaceAll_append (hne : search ≠ []) {front back : Units} (h : Clean search front back) :
    replaceAll search replacement (front ++ back) =
      replaceAll search replacement front ++ replaceAll search replacement back := by
  induction h with
  | nil => rw [replaceAll.eq_def search replacement [], nil_append, nil_append]
  | @skip code front back h hrest ih =>
    have hshort : ¬ search <+: code :: front := fun hpart =>
      h (hpart.trans (cons_prefix_cons.mpr ⟨rfl, prefix_append _ _⟩))
    rw [cons_append, replaceAll_skip h, replaceAll_skip hshort, ih, cons_append]
  | hit hrest ih =>
    rw [append_assoc, replaceAll_hit hne, replaceAll_hit hne, ih, append_assoc]

namespace Clean

variable {a b c : Units}

theorem left (h : Clean search a (b ++ c)) : Clean search a b := by
  generalize hback : b ++ c = back at h
  induction h with
  | nil => exact .nil b
  | @skip code front back hno hrest ih =>
    subst hback
    refine .skip (fun hpart => hno (hpart.trans ?_)) (ih rfl)
    rw [← append_assoc]
    exact cons_prefix_cons.mpr ⟨rfl, prefix_append _ _⟩
  | hit hrest ih => exact .hit (ih hback)

theorem mid (hne : search ≠ []) (h : Clean search a (b ++ c)) (hab : Clean search (a ++ b) c) :
    Clean search b c := by
  generalize hback : b ++ c = back at h
  induction h with
  | nil => exact hab
  | @skip code front back hno hrest ih =>
    subst hback
    generalize hfront : code :: front ++ b = whole at hab
    cases hab with
    | nil => cases hfront
    | skip hno' hrest' =>
      obtain ⟨-, rfl⟩ := List.cons.inj hfront
      exact ih hrest' rfl
    | @hit front' _ hrest' =>
      refine absurd ?_ hno
      have hwhole : code :: (front ++ (b ++ c)) = search ++ (front' ++ c) := by
        rw [← append_assoc search, ← hfront]
        simp
      rw [hwhole]
      exact prefix_append _ _
  | @hit front back hrest ih =>
    subst hback
    generalize hfront : search ++ front ++ b = whole at hab
    cases hab with
    | nil =>
      rw [append_assoc] at hfront
      exact absurd (append_eq_nil_iff.mp hfront).1 hne
    | @skip code front' _ hno' hrest' =>
      refine absurd ?_ hno'
      rw [← cons_append, ← hfront, append_assoc, append_assoc]
      exact prefix_append _ _
    | @hit front' _ hrest' =>
      rw [append_assoc] at hfront
      exact ih (append_cancel_left hfront ▸ hrest') rfl

theorem append (hab : Clean search a (b ++ c)) (hbc : Clean search b c) :
    Clean search (a ++ b) c := by
  generalize hback : b ++ c = back at hab
  induction hab with
  | nil => exact hbc
  | @skip code front back hno hrest ih =>
    subst hback
    rw [cons_append]
    refine .skip ?_ (ih rfl)
    rwa [append_assoc]
  | hit hrest ih =>
    rw [append_assoc]
    exact .hit (ih hback)

end Clean

/-! ### An occurrence and a piece that have something in common -/

/-- In one text, `front ++ piece ++ back` and `x ++ s ++ y`, the piece and `s` overlap, or the
empty piece is inside `s`. -/
inductive Meets (front piece back x s y : Units) : Prop
  | inside (c₁ c₂ : Units) (hs : s = c₁ ++ (piece ++ c₂)) (hfront : front = x ++ c₁)
      (hback : back = c₂ ++ y)
  | around (t₁ t₂ : Units) (hpiece : piece = t₁ ++ (s ++ t₂)) (hx : x = front ++ t₁)
      (hy : y = t₂ ++ back)
  | ending (t w c : Units) (hw : w ≠ []) (hpiece : piece = t ++ w) (hs : s = w ++ c)
      (hx : x = front ++ t) (hback : back = c ++ y)
  | starting (c w t : Units) (hw : w ≠ []) (hs : s = c ++ w) (hpiece : piece = w ++ t)
      (hfront : front = x ++ c) (hy : y = t ++ back)

namespace Meets

variable {front piece back x s y : Units}

/-- Two readings of one text, the first part of one being the shorter one. -/
theorem split_of_le {u v t r : Units} (h : u ++ v = t ++ r) (hle : u.length ≤ t.length) :
    ∃ m, t = u ++ m ∧ v = m ++ r := by
  obtain ⟨m, rfl⟩ : u <+: t := prefix_of_prefix_length_le ⟨v, h⟩ (prefix_append t r) hle
  rw [append_assoc] at h
  exact ⟨m, rfl, append_cancel_left h⟩

/-- Two readings of one text, by where the piece and `s` begin and end. -/
theorem of_overlap (heq : front ++ (piece ++ back) = x ++ (s ++ y))
    (hstart : x.length < front.length + piece.length) (hend : front.length < x.length + s.length) :
    Meets front piece back x s y := by
  rcases le_total front.length x.length with hle | hle
  · obtain ⟨t, hx, hpiece⟩ := split_of_le heq hle
    have ht : t.length < piece.length := by
      rw [hx, length_append] at hstart
      omega
    have hends : (t ++ s) ++ y = piece ++ back := by rw [append_assoc, hpiece]
    rcases le_total (t ++ s).length piece.length with hshort | hlong
    · obtain ⟨t₂, hpiece', hy⟩ := split_of_le hends hshort
      exact .around t t₂ (by rw [hpiece', append_assoc]) hx hy
    obtain ⟨c, hs, hback⟩ := split_of_le hends.symm hlong
    obtain ⟨w, hw, -⟩ := split_of_le hpiece.symm ht.le
    refine .ending t w c ?_ hw ?_ hx hback
    · rintro rfl
      rw [hw, append_nil] at ht
      exact lt_irrefl _ ht
    rw [hw, append_assoc] at hs
    exact append_cancel_left hs
  obtain ⟨c, hfront, hs⟩ := split_of_le heq.symm hle
  have hc : c.length < s.length := by
    rw [hfront, length_append] at hend
    omega
  have hends : (c ++ piece) ++ back = s ++ y := by rw [append_assoc, hs]
  rcases le_total (c ++ piece).length s.length with hshort | hlong
  · obtain ⟨c₂, hs', hback⟩ := split_of_le hends hshort
    exact .inside c c₂ (by rw [hs', append_assoc]) hfront hback
  obtain ⟨t, hpiece, hy⟩ := split_of_le hends.symm hlong
  obtain ⟨w, hw, -⟩ := split_of_le hs.symm hc.le
  refine .starting c w t ?_ hw ?_ hfront hy
  · rintro rfl
    rw [hw, append_nil] at hc
    exact lt_irrefl _ hc
  rw [hw, append_assoc] at hpiece
  exact append_cancel_left hpiece

/-- More text in front of both. -/
theorem shift (h : Meets front piece back x s y) (more : Units) :
    Meets (more ++ front) piece back (more ++ x) s y := by
  cases h with
  | inside c₁ c₂ hs hfront hback =>
    exact .inside c₁ c₂ hs (by rw [hfront, append_assoc]) hback
  | around t₁ t₂ hpiece hx hy => exact .around t₁ t₂ hpiece (by rw [hx, append_assoc]) hy
  | ending t w c hw hpiece hs hx hback =>
    exact .ending t w c hw hpiece hs (by rw [hx, append_assoc]) hback
  | starting c w t hw hs hpiece hfront hy =>
    exact .starting c w t hw hs hpiece (by rw [hfront, append_assoc]) hy

end Meets

theorem replaceAll_of_inside {s part : Units} (hs : ¬ search <:+: s) (h : part <:+: s) :
    replaceAll search replacement part = part :=
  replaceAll_of_absent fun hin => hs (hin.trans h)

/-- The step: a pass that reaches neither across the borders of the piece nor across those of an
occurrence without the search text leaves them something in common. -/
theorem Meets.replaceAll (hne : search ≠ []) {front piece back x s y : Units}
    (h : Meets front piece back x s y) (hs : ¬ search <:+: s)
    (hx : Clean search x (s ++ y)) (hxs : Clean search (x ++ s) y)
    (hfront : Clean search front (piece ++ back)) (hpiece : Clean search (front ++ piece) back) :
    Meets (replaceAll search replacement front) (replaceAll search replacement piece)
      (replaceAll search replacement back) (replaceAll search replacement x) s
      (replaceAll search replacement y) := by
  have hsame : ∀ {part}, part <:+: s → Secrets.replaceAll search replacement part = part :=
    fun hpart => replaceAll_of_inside hs hpart
  cases h with
  | inside c₁ c₂ heq hf hb =>
    subst heq hf hb
    have hclean : Clean search x (c₁ ++ (piece ++ (c₂ ++ y))) := by simpa using hx
    refine .inside c₁ c₂ ?_ ?_ ?_
    · rw [hsame (infix_append _ _ _ |>.trans (by rw [append_assoc]))]
    · rw [replaceAll_append hne hclean.left, hsame (prefix_append _ _).isInfix]
    have hc₂ : Clean search c₂ y := by
      refine Clean.mid hne hpiece ?_
      simpa using hxs
    rw [replaceAll_append hne hc₂]
    rw [hsame ((suffix_append _ _).trans (suffix_append _ _)).isInfix]
  | around t₁ t₂ hp hx' hy =>
    subst hp hx' hy
    have hbefore : Clean search (front ++ t₁) (s ++ (t₂ ++ back)) := hx
    have hafter : Clean search ((front ++ t₁) ++ s) (t₂ ++ back) := hxs
    have ht₁ : Clean search t₁ (s ++ (t₂ ++ back)) := Clean.mid hne (by simpa using hfront) hbefore
    have hs' : Clean search s (t₂ ++ back) := Clean.mid hne hbefore hafter
    have ht₂ : Clean search t₂ back := Clean.mid hne hafter (by simpa using hpiece)
    refine .around (Secrets.replaceAll search replacement t₁)
      (Secrets.replaceAll search replacement t₂) ?_ ?_ ?_
    · have hleft : Clean search t₁ (s ++ t₂) := by
        rw [← append_assoc] at ht₁
        exact ht₁.left
      rw [replaceAll_append hne hleft, replaceAll_append hne hs'.left, hsame infix_rfl]
    · exact replaceAll_append hne (Clean.left (by simpa using hfront))
    · exact replaceAll_append hne ht₂
  | ending t w c hw hp hs' hx' hback =>
    subst hp hs' hx' hback
    have hbefore : Clean search (front ++ t) (w ++ (c ++ y)) := by simpa using hx
    have ht : Clean search t (w ++ (c ++ y)) := Clean.mid hne (by simpa using hfront) hbefore
    have hc : Clean search c y := by
      refine Clean.mid hne hpiece ?_
      simpa using hxs
    refine .ending (Secrets.replaceAll search replacement t) w c hw ?_ rfl ?_ ?_
    · rw [replaceAll_append hne ht.left, hsame (prefix_append _ _).isInfix]
    · exact replaceAll_append hne (Clean.left (by simpa using hfront))
    · rw [replaceAll_append hne hc, hsame (suffix_append _ _).isInfix]
  | starting c w t hw hs' hp hf hy =>
    subst hs' hp hf hy
    have hafter : Clean search ((x ++ c) ++ w) (t ++ back) := by simpa using hxs
    have hw' : Clean search w (t ++ back) := Clean.mid hne (by simpa using hfront) hafter
    have ht : Clean search t back := Clean.mid hne hafter (by simpa using hpiece)
    refine .starting c w (Secrets.replaceAll search replacement t) hw rfl ?_ ?_ ?_
    · rw [replaceAll_append hne hw'.left, hsame (suffix_append _ _).isInfix]
    · rw [replaceAll_append hne (Clean.left (by simpa using hx)), hsame (prefix_append _ _).isInfix]
    · exact replaceAll_append hne ht

/-! ### What occurs after a pass -/

/-- The first occurrence: nothing in front of it begins one. -/
theorem exists_first (hne : search ≠ []) (text : Units) :
    (¬ search <:+: text) ∨ ∃ front back, text = front ++ (search ++ back) ∧
      ∀ u v, front = u ++ v → v ≠ [] → ¬ search <+: v ++ (search ++ back) := by
  induction text with
  | nil => exact .inl fun h => hne (infix_nil.mp h)
  | cons code rest ih =>
    by_cases hprefix : search <+: code :: rest
    · obtain ⟨back, hback⟩ := hprefix
      refine .inr ⟨[], back, hback.symm, fun u v huv hv => ?_⟩
      exact absurd (append_eq_nil_iff.mp huv.symm).2 hv
    rcases ih with habsent | ⟨front, back, hrest, hfirst⟩
    · refine .inl fun h => ?_
      rcases infix_cons_iff.mp h with h | h
      · exact hprefix h
      · exact habsent h
    refine .inr ⟨code :: front, back, by rw [hrest]; rfl, fun u v huv hv => ?_⟩
    cases u with
    | nil =>
      rw [nil_append] at huv
      rw [← huv, cons_append, ← hrest]
      exact hprefix
    | cons first u =>
      obtain ⟨-, hfront⟩ := List.cons.inj huv
      exact hfirst u v hfront hv

/-- In front of the first occurrence every place is come to. -/
theorem clean_of_first {front back : Units}
    (hfirst : ∀ u v, front = u ++ v → v ≠ [] → ¬ search <+: v ++ back) {u v : Units}
    (h : front = u ++ v) : Clean search u (v ++ back) := by
  induction u generalizing front with
  | nil => exact .nil _
  | cons code u ih =>
    subst h
    refine .skip ?_ (ih (fun u' v' huv hv => hfirst (code :: u') v' (congrArg _ huv) hv) rfl)
    have := hfirst [] (code :: (u ++ v)) rfl (cons_ne_nil _ _)
    simpa using this

theorem clean_of_absent {text : Units} (h : ¬ search <:+: text) {u v : Units}
    (huv : text = u ++ v) : Clean search u v := by
  have hfirst : ∀ u' v', text = u' ++ v' → v' ≠ [] → ¬ search <+: v' ++ [] := by
    intro u' v' heq _ hpart
    rw [append_nil] at hpart
    exact h (heq ▸ hpart.isInfix.trans (suffix_append u' v').isInfix)
  simpa using clean_of_first hfirst huv

theorem replaceAll_of_first {front back : Units} (hne : search ≠ [])
    (hfirst : ∀ u v, front = u ++ v → v ≠ [] → ¬ search <+: v ++ (search ++ back))
    (habsent : ¬ search <:+: front) :
    replaceAll search replacement (front ++ (search ++ back)) =
      front ++ (replacement ++ replaceAll search replacement back) := by
  have hclean := clean_of_first hfirst (append_nil front).symm
  rw [nil_append] at hclean
  rw [replaceAll_append hne hclean, replaceAll_hit hne, replaceAll_of_absent habsent]

/-- What occurs after a pass was there before and is not touched, or it has something of a
replacement. -/
theorem occurrence_cases (hne : search ≠ []) {text x s y : Units}
    (h : replaceAll search replacement text = x ++ (s ++ y)) :
    (∃ x₀ y₀, text = x₀ ++ (s ++ y₀) ∧ Clean search x₀ (s ++ y₀) ∧ Clean search (x₀ ++ s) y₀ ∧
        ¬ search <:+: s ∧ x = replaceAll search replacement x₀ ∧
          y = replaceAll search replacement y₀) ∨
      ∃ front back, text = front ++ (search ++ back) ∧ Clean search front (search ++ back) ∧
        Meets (replaceAll search replacement front) replacement
          (replaceAll search replacement back) x s y := by
  induction hlength : text.length using Nat.strong_induction_on generalizing text x with
  | _ n ih =>
    rcases exists_first hne text with habsent | ⟨front, back, htext, hfirst⟩
    · left
      have hx : text = x ++ (s ++ y) := (replaceAll_of_absent habsent).symm.trans h
      have hpart : ∀ {part}, part <:+: text → replaceAll search replacement part = part :=
        fun hin => replaceAll_of_inside habsent hin
      refine ⟨x, y, hx, clean_of_absent habsent hx,
        clean_of_absent habsent (by rw [hx, append_assoc]), fun hin => ?_, ?_, ?_⟩
      · exact habsent (hin.trans (hx ▸ ⟨x, y, by rw [append_assoc]⟩))
      · exact (hpart (hx ▸ (prefix_append _ _).isInfix)).symm
      refine (hpart (hx ▸ ?_)).symm
      exact ((suffix_append s y).trans (suffix_append x _)).isInfix
    have habsent : ¬ search <:+: front := by
      rintro ⟨u, v, huv⟩
      refine hfirst u (search ++ v) (by rw [← huv, append_assoc]) ?_ ?_
      · exact fun hnil => hne (append_eq_nil_iff.mp hnil).1
      rw [append_assoc]
      exact prefix_append _ _
    have hclean := clean_of_first hfirst (append_nil front).symm
    rw [nil_append] at hclean
    rw [htext, replaceAll_of_first hne hfirst habsent] at h
    rcases lt_or_ge front.length (x.length + s.length) with hbehind | hin
    · rcases lt_or_ge x.length (front.length + replacement.length) with hmeets | hlater
      · refine .inr ⟨front, back, htext, hclean, ?_⟩
        rw [replaceAll_of_absent habsent]
        exact Meets.of_overlap h hmeets hbehind
      · -- the occurrence is behind the replacement
        obtain ⟨rest, hx, hback⟩ := Meets.split_of_le
          ((append_assoc front replacement _).trans h)
          (by rw [length_append]; exact hlater)
        have hlt : back.length < n := by
          rw [← hlength, htext]
          simp only [length_append]
          have := length_pos_iff.mpr hne
          omega
        have hfront : ∀ {u v}, Clean search u v → back = u ++ v →
            Clean search (front ++ (search ++ u)) v := by
          rintro u v huv rfl
          refine Clean.append ?_ (.hit huv)
          simpa using hclean
        have hreplaced : ∀ {u v}, Clean search u v → back = u ++ v →
            replaceAll search replacement (front ++ (search ++ u)) =
              (front ++ replacement) ++ replaceAll search replacement u := by
          rintro u v huv rfl
          have hfirst' : Clean search front (search ++ u) := by
            rw [← append_assoc] at hclean
            exact hclean.left
          rw [replaceAll_append hne hfirst', replaceAll_hit hne, replaceAll_of_absent habsent,
            append_assoc]
        rcases ih back.length hlt hback rfl with hpass | htile
        · obtain ⟨x₀, y₀, hback₀, hx₀, hxs₀, hs₀, hxr, hyr⟩ := hpass
          refine .inl ⟨front ++ (search ++ x₀), y₀, ?_, hfront hx₀ hback₀, ?_, hs₀, ?_, hyr⟩
          · rw [htext, hback₀]
            simp
          · have hends := hfront hxs₀ (by rw [hback₀, append_assoc])
            simpa using hends
          · rw [hreplaced hx₀ hback₀, hx, hxr]
        obtain ⟨front₀, back₀, hback₀, hclean₀, hmeets⟩ := htile
        refine .inr ⟨front ++ (search ++ front₀), back₀, ?_, hfront hclean₀ hback₀, ?_⟩
        · rw [htext, hback₀]
          simp
        rw [hreplaced hclean₀ hback₀, hx]
        exact hmeets.shift _
    -- the occurrence is in front of the replacement
    left
    obtain ⟨z, hz, hy⟩ := Meets.split_of_le ((append_assoc x s y).trans h.symm)
      (by rw [length_append]; exact hin)
    have hfront : front = x ++ (s ++ z) := by rw [hz, append_assoc]
    have hpart : ∀ {part}, part <:+: front → replaceAll search replacement part = part :=
      fun hin => replaceAll_of_inside habsent hin
    have hxs := clean_of_first hfirst hz
    refine ⟨x, z ++ (search ++ back), ?_, ?_, hxs, fun hin => ?_, ?_, ?_⟩
    · rw [htext, hz]
      simp
    · simpa using clean_of_first hfirst hfront
    · exact habsent (hin.trans (hz ▸ ⟨x, z, rfl⟩))
    · exact (hpart (hfront ▸ (prefix_append _ _).isInfix)).symm
    have hcleanz : Clean search z (search ++ back) := Clean.mid hne hxs (hz ▸ hclean)
    rw [replaceAll_append hne hcleanz, replaceAll_hit hne,
      hpart (hz ▸ (suffix_append _ _).isInfix), hy]

end BreadboardTui.Secrets
