import JarText.Text.Case
import Mathlib.Data.List.Infix

/-!
# Small letters in their surroundings

Only a capital sigma looks at what stands around it when a text is put in small letters. So the
small form of a part is a part of the small form of the whole, unless a sigma at an edge of the part
ends a word in the part alone and does not end one in the whole, or the other way round. A text that
has such a sigma at an edge does get another form somewhere, and is then not found there.
-/

set_option autoImplicit false

namespace JarText.Text

/-- Whether a capital sigma takes the final form between two texts, the one before it given with its
nearest character first. -/
def endsWord (before after : List Char) : Bool := casedNext before && !casedNext after

/-- The small form of a text between two others, the one before it given with its nearest character
first. -/
def lowerBetween (before : List Char) : (text after : List Char) → List Char
  | [], _ => []
  | c :: text, after =>
    lowerAt before c (text ++ after) ++ lowerBetween (c :: before) text after

/-- The capital sigmas of the text have between these two texts the form that they have in the text
alone. -/
def KeepsSigmas (before text after : List Char) : Prop :=
  ∀ front back, text = front ++ 'Σ' :: back →
    endsWord (front.reverse ++ before.reverse) (back ++ after) = endsWord front.reverse back

/-- A capital sigma stands so near to an edge of the text that its form depends on what is beyond
it. -/
inductive LooseSigma : List Char → Prop where
  | opening {front back : List Char} (hfront : ∀ c ∈ front, isCaseIgnorable c = true)
      (hback : casedNext back = false) : LooseSigma (front ++ 'Σ' :: back)
  | closing {front back : List Char} (hback : ∀ c ∈ back, isCaseIgnorable c = true)
      (hfront : casedNext front.reverse = true) : LooseSigma (front ++ 'Σ' :: back)

variable {before before' text after after' front back : List Char}

theorem LooseSigma.mem (h : LooseSigma text) : 'Σ' ∈ text := by
  cases h <;> exact List.mem_append_cons_self

/-! ## The next character with a case -/

theorem casedNext_append_of_forall (h : ∀ c ∈ front, isCaseIgnorable c = true) :
    casedNext (front ++ back) = casedNext back := by
  rw [casedNext, List.dropWhile_append_of_pos h, casedNext]

theorem casedNext_of_forall (h : ∀ c ∈ text, isCaseIgnorable c = true) :
    casedNext text = false := by
  have hnil := @casedNext_append_of_forall text [] h
  rwa [List.append_nil] at hnil

/-- The search goes no further than a character that is not passed over. -/
theorem casedNext_past {c : Char} (hc : isCaseIgnorable c = false) (front back back' : List Char) :
    casedNext (front ++ c :: back) = casedNext (front ++ c :: back') := by
  induction front with
  | nil => simp [casedNext, hc]
  | cons first front ih =>
    by_cases hfirst : isCaseIgnorable first = true
    · simpa [casedNext, hfirst] using ih
    · simp [casedNext, hfirst]

theorem casedNext_append_of_exists (h : ¬ ∀ c ∈ front, isCaseIgnorable c = true) :
    casedNext (front ++ back) = casedNext front := by
  obtain ⟨c, hmem, hc⟩ : ∃ c ∈ front, isCaseIgnorable c = false := by simpa using h
  obtain ⟨first, last, rfl⟩ := List.append_of_mem hmem
  rw [List.append_assoc, List.cons_append]
  exact casedNext_past hc first (last ++ back) last

theorem isCaseIgnorable_sigma : isCaseIgnorable 'Σ' = false := by decide +kernel

/-! ## The small form of a part -/

theorem lowerFrom_eq_lowerBetween : lowerFrom [] before text = lowerBetween before text [] := by
  induction text generalizing before with
  | nil => rfl
  | cons c text ih => rw [lowerFrom_cons, lowerBetween, ih, List.append_nil]

theorem lowerBetween_append : lowerBetween before (front ++ back) after =
    lowerBetween before front (back ++ after) ++
      lowerBetween (front.reverse ++ before) back after := by
  induction front generalizing before with
  | nil => rfl
  | cons c front ih =>
    rw [List.cons_append, lowerBetween, ih, lowerBetween, List.append_assoc, List.append_assoc,
      List.reverse_cons, List.append_assoc, List.singleton_append]

theorem lowerAt_sigma : lowerAt before 'Σ' after =
    [if endsWord before after then 'ς' else 'σ'] := rfl

/-- The sigmas alone decide. -/
theorem lowerBetween_congr (h : ∀ front back, text = front ++ 'Σ' :: back →
      endsWord (front.reverse ++ before) (back ++ after) =
        endsWord (front.reverse ++ before') (back ++ after')) :
    lowerBetween before text after = lowerBetween before' text after' := by
  induction text generalizing before before' with
  | nil => rfl
  | cons c text ih =>
    have hfirst : lowerAt before c (text ++ after) = lowerAt before' c (text ++ after') := by
      by_cases hc : c = 'Σ'
      · subst hc
        have hsigma := h [] text rfl
        rw [List.reverse_nil, List.nil_append, List.nil_append] at hsigma
        rw [lowerAt_sigma, lowerAt_sigma, hsigma]
      · rw [lowerAt, if_neg hc, lowerAt, if_neg hc]
    rw [lowerBetween, lowerBetween, hfirst]
    apply congrArg
    apply ih
    rintro front back rfl
    have hsigma := h (c :: front) back rfl
    simpa using hsigma

theorem lowerBetween_of_ignorable (h : ∀ c ∈ text, isCaseIgnorable c = true) :
    lowerBetween before text after = lowerBetween before' text after' := by
  apply lowerBetween_congr
  rintro front back rfl
  have hsigma := h 'Σ' (List.mem_append_right _ List.mem_cons_self)
  rw [isCaseIgnorable_sigma] at hsigma
  cases hsigma

theorem lower_infix_of_keepsSigmas (h : KeepsSigmas before text after) :
    lower text <:+: lower (before ++ text ++ after) := by
  have hpart : lowerBetween before.reverse text after = lower text := by
    rw [lower, lowerFrom_eq_lowerBetween]
    apply lowerBetween_congr
    intro front back hsplit
    rw [List.append_nil, List.append_nil]
    exact h front back hsplit
  rw [← hpart, lower, lowerFrom_eq_lowerBetween, lowerBetween_append, lowerBetween_append]
  simp only [List.append_nil]
  exact List.infix_append _ _ _

theorem keepsSigmas_of_not_looseSigma (h : ¬ LooseSigma text) (before after : List Char) :
    KeepsSigmas before text after := by
  rintro front back rfl
  unfold endsWord
  by_cases hfront : ∀ c ∈ front, isCaseIgnorable c = true
  · -- nothing before the sigma in the text alone, so a letter with a case must follow it there
    have hback : casedNext back = true := by
      by_contra hnot
      exact h (.opening hfront (Bool.eq_false_iff.mpr hnot))
    have hafter : casedNext (back ++ after) = true := by
      rw [casedNext_append_of_exists ?_, hback]
      intro hall
      rw [casedNext_of_forall hall] at hback
      cases hback
    rw [hback, hafter]
    simp
  · have hbefore : casedNext (front.reverse ++ before.reverse) = casedNext front.reverse := by
      apply casedNext_append_of_exists
      simpa using hfront
    rw [hbefore]
    by_cases hback : ∀ c ∈ back, isCaseIgnorable c = true
    · have hcased : casedNext front.reverse = false := by
        by_contra hnot
        exact h (.closing hback (Bool.not_eq_false _ ▸ hnot))
      rw [hcased, Bool.false_and, Bool.false_and]
    · rw [casedNext_append_of_exists hback]

/-! ## A loose sigma in another form -/

theorem lower_append_sigma : lower (front ++ 'Σ' :: back) =
    lowerBetween [] front ('Σ' :: back) ++ [if endsWord front.reverse back then 'ς' else 'σ'] ++
      lowerBetween ('Σ' :: front.reverse) back [] := by
  rw [lower, lowerFrom_eq_lowerBetween, lowerBetween_append, lowerBetween, lowerAt_sigma]
  simp only [List.append_nil, List.append_assoc]

theorem casedNext_a (rest : List Char) : casedNext ('a' :: rest) = true := by
  have hcase : isCased 'a' = true := by decide +kernel
  have hpassed : isCaseIgnorable 'a' = false := by decide +kernel
  rw [casedNext, List.dropWhile_cons_of_neg (by simp [hpassed])]
  exact hcase

theorem lowerAt_a : lowerAt before 'a' after = ['a'] := by
  rw [lowerAt, if_neg (by decide)]
  decide

/-- Before a letter the closing sigma is not final, and all else is as in the text alone. -/
theorem lower_closing (hback : ∀ c ∈ back, isCaseIgnorable c = true) :
    lower (front ++ 'Σ' :: (back ++ ['a'])) =
      lowerBetween [] front ('Σ' :: back) ++ ['σ'] ++
        (lowerBetween ('Σ' :: front.reverse) back [] ++ ['a']) := by
  have hinner : endsWord front.reverse (back ++ ['a']) = false := by
    rw [endsWord, casedNext_append_of_forall hback, casedNext_a, Bool.not_true, Bool.and_false]
  have hfront : lowerBetween [] front ('Σ' :: (back ++ ['a'])) =
      lowerBetween [] front ('Σ' :: back) := by
    apply lowerBetween_congr
    intro start rest _
    rw [endsWord, endsWord, casedNext_past isCaseIgnorable_sigma rest (back ++ ['a']) back]
  have hrest : lowerBetween ('Σ' :: front.reverse) (back ++ ['a']) [] =
      lowerBetween ('Σ' :: front.reverse) back [] ++ ['a'] := by
    rw [lowerBetween_append, lowerBetween_of_ignorable hback, lowerBetween, lowerAt_a]
    rfl
  rw [lower_append_sigma, hinner, hfront, hrest]
  rfl

/-- After a letter the opening sigma is final, and all else is as in the text alone. -/
theorem lower_opening (hfront : ∀ c ∈ front, isCaseIgnorable c = true)
    (hback : casedNext back = false) :
    lower ('a' :: front ++ 'Σ' :: back) =
      'a' :: lowerBetween [] front ('Σ' :: back) ++ ['ς'] ++
        lowerBetween ('Σ' :: front.reverse) back [] := by
  have hignored : ∀ c ∈ front.reverse, isCaseIgnorable c = true := by simpa using hfront
  have hfinal : endsWord ('a' :: front).reverse back = true := by
    rw [endsWord, List.reverse_cons, casedNext_append_of_forall hignored, casedNext_a, hback]
    rfl
  have hstart : lowerBetween [] ('a' :: front) ('Σ' :: back) =
      'a' :: lowerBetween [] front ('Σ' :: back) := by
    rw [lowerBetween, lowerAt_a, lowerBetween_of_ignorable hfront]
    rfl
  have hrest : lowerBetween ('Σ' :: ('a' :: front).reverse) back [] =
      lowerBetween ('Σ' :: front.reverse) back [] := by
    apply lowerBetween_congr
    intro start rest _
    have hpast := casedNext_past isCaseIgnorable_sigma start.reverse ('a' :: front).reverse
      front.reverse
    rw [endsWord, endsWord, hpast]
  rw [lower_append_sigma, hfinal, hstart, hrest]
  rfl

/-- A text with a loose sigma stands in some text whose small form does not hold its own: there the
sigma has another form, and every other one has the form it has in the text alone. -/
theorem exists_not_lower_infix (h : LooseSigma text) :
    ∃ whole, text <:+: whole ∧ 'a' ∈ whole ∧ ¬ lower text <:+: lower whole := by
  cases h with
  | @opening front back hfront hback =>
    refine ⟨'a' :: front ++ 'Σ' :: back, ⟨['a'], [], by simp⟩, List.mem_cons_self, ?_⟩
    intro hwithin
    have hignored : ∀ c ∈ front.reverse, isCaseIgnorable c = true := by simpa using hfront
    have halone : endsWord front.reverse back = false := by
      rw [endsWord, casedNext_of_forall hignored, Bool.false_and]
    have hfewer : (lower ('a' :: front ++ 'Σ' :: back)).count 'σ' <
        (lower (front ++ 'Σ' :: back)).count 'σ' := by
      rw [lower_opening hfront hback, lower_append_sigma, halone]
      simp [List.count_append]
    exact absurd (hwithin.sublist.count_le 'σ') (Nat.not_le_of_lt hfewer)
  | @closing front back hback hfront =>
    refine ⟨front ++ 'Σ' :: (back ++ ['a']), ⟨[], ['a'], by simp⟩, by simp, ?_⟩
    intro hwithin
    have halone : endsWord front.reverse back = true := by
      rw [endsWord, hfront, casedNext_of_forall hback]
      rfl
    have hfewer : (lower (front ++ 'Σ' :: (back ++ ['a']))).count 'ς' <
        (lower (front ++ 'Σ' :: back)).count 'ς' := by
      rw [lower_closing hback, lower_append_sigma, halone]
      simp [List.count_append]
    exact absurd (hwithin.sublist.count_le 'ς') (Nat.not_le_of_lt hfewer)

end JarText.Text
