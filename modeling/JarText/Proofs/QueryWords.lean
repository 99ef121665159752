import JarText.Filter
import JarText.Proofs.SmallLetters

/-!
# Queries

A query counts by its words only. `Text.Lays` says how words stand in a text with blanks around
them, and `Text.words` finds exactly those. To filter by two queries one after the other is to filter
by both at once. A word that stands in a value as it is written is found there, but for a capital
sigma at an edge of the word that has another form in the value than in the word alone.
-/

set_option autoImplicit false

namespace JarText

namespace Text

def IsGap (gap : List Char) : Prop := ∀ c ∈ gap, isBlank c = true

structure IsWord (word : List Char) : Prop where
  ne_nil : word ≠ []
  noBlank : ∀ c ∈ word, isBlank c = false

/-- The text holds these words in order, with blanks between them and perhaps around them. -/
inductive Lays : List (List Char) → List Char → Prop where
  | blanks {gap : List Char} (hgap : IsGap gap) : Lays [] gap
  | last {gap word : List Char} (hgap : IsGap gap) (hword : IsWord word) :
      Lays [word] (gap ++ word)
  | next {gap word rest : List Char} {c : Char} {words : List (List Char)} (hgap : IsGap gap)
      (hword : IsWord word) (hc : isBlank c = true) (hrest : Lays words rest) :
      Lays (word :: words) (gap ++ word ++ c :: rest)

variable {text front back gap word : List Char} {words : List (List Char)} {c : Char}

/-! ## Finding the words of a text -/

theorem wordsFrom_blank (hc : isBlank c = true) (done : List (List Char)) (word rest : List Char) :
    wordsFrom done word (c :: rest) =
      wordsFrom (if word.isEmpty then done else word.reverse :: done) [] rest :=
  if_pos hc

theorem wordsFrom_solid (hc : isBlank c = false) (done : List (List Char))
    (word rest : List Char) : wordsFrom done word (c :: rest) = wordsFrom done (c :: word) rest :=
  if_neg (Bool.eq_false_iff.mp hc)

theorem wordsFrom_eq_append (done : List (List Char)) (word text : List Char) :
    wordsFrom done word text = done.reverse ++ wordsFrom [] word text := by
  induction text generalizing done word with
  | nil =>
    rw [wordsFrom, wordsFrom]
    split <;> simp
  | cons c text ih =>
    cases hc : isBlank c with
    | true =>
      rw [wordsFrom_blank hc, wordsFrom_blank hc]
      split
      · exact ih done []
      · rw [ih, ih [word.reverse], List.reverse_cons, List.append_assoc]
        rfl
    | false =>
      rw [wordsFrom_solid hc, wordsFrom_solid hc]
      exact ih done (c :: word)

/-- A blank ends the word that is under way, and the words behind it are found on their own. -/
theorem wordsFrom_append_blank (hc : isBlank c = true) (word front back : List Char) :
    wordsFrom [] word (front ++ c :: back) = wordsFrom [] word front ++ Text.words back := by
  induction front generalizing word with
  | nil =>
    rw [List.nil_append, wordsFrom_blank hc, wordsFrom_eq_append]
    rfl
  | cons d front ih =>
    rw [List.cons_append]
    cases hd : isBlank d with
    | true =>
      rw [wordsFrom_blank hd, wordsFrom_blank hd, wordsFrom_eq_append _ [] (front ++ c :: back),
        wordsFrom_eq_append _ [] front, ih, List.append_assoc]
    | false =>
      rw [wordsFrom_solid hd, wordsFrom_solid hd]
      exact ih (d :: word)

theorem words_append_blank (hc : isBlank c = true) (front back : List Char) :
    Text.words (front ++ c :: back) = Text.words front ++ Text.words back :=
  wordsFrom_append_blank hc [] front back

theorem words_gap_append (hgap : IsGap gap) (text : List Char) :
    Text.words (gap ++ text) = Text.words text := by
  induction gap with
  | nil => rfl
  | cons c gap ih =>
    obtain ⟨hc, hrest⟩ := List.forall_mem_cons.mp hgap
    rw [List.cons_append, ← List.nil_append (c :: (gap ++ text)), words_append_blank hc, ih hrest]
    rfl

theorem wordsFrom_of_noBlank (h : ∀ c ∈ text, isBlank c = false) (word : List Char) :
    wordsFrom [] word text = wordsFrom [] (text.reverse ++ word) [] := by
  induction text generalizing word with
  | nil => rfl
  | cons c text ih =>
    obtain ⟨hc, hrest⟩ := List.forall_mem_cons.mp h
    rw [wordsFrom_solid hc, ih hrest, List.reverse_cons, List.append_assoc]
    rfl

theorem IsWord.words_eq (h : IsWord word) : Text.words word = [word] := by
  rw [Text.words, wordsFrom_of_noBlank h.noBlank, List.append_nil, wordsFrom,
    if_neg (by simpa using h.ne_nil)]
  simp

theorem Lays.words_eq (h : Lays words text) : Text.words text = words := by
  induction h with
  | blanks hgap =>
    have hwords := words_gap_append hgap []
    rwa [List.append_nil] at hwords
  | last hgap hword => rw [words_gap_append hgap, hword.words_eq]
  | next hgap hword hc _ ih =>
    rw [words_append_blank hc, words_gap_append hgap, hword.words_eq, ih]
    rfl

theorem Lays.cons_blank (h : Lays words text) (hc : isBlank c = true) : Lays words (c :: text) := by
  have hcons {gap : List Char} (hgap : IsGap gap) : IsGap (c :: gap) :=
    List.forall_mem_cons.mpr ⟨hc, hgap⟩
  cases h with
  | blanks hgap => exact .blanks (hcons hgap)
  | last hgap hword => exact .last (hcons hgap) hword
  | next hgap hword hc hrest => exact .next (hcons hgap) hword hc hrest

theorem lays_wordsFrom (hword : ∀ c ∈ word, isBlank c = false) (text : List Char) :
    Lays (wordsFrom [] word text) (word.reverse ++ text) := by
  have hnoGap : IsGap [] := fun c hc => absurd hc List.not_mem_nil
  induction text generalizing word with
  | nil =>
    rw [wordsFrom]
    split
    · rename_i hempty
      rw [List.isEmpty_iff.mp hempty]
      exact .blanks hnoGap
    · rename_i hne
      have hword' : IsWord word.reverse := ⟨by simpa using hne, by simpa using hword⟩
      simpa using Lays.last hnoGap hword'
  | cons c text ih =>
    cases hc : isBlank c with
    | true =>
      have hrest := @ih [] fun d hd => absurd hd List.not_mem_nil
      rw [wordsFrom_blank hc]
      split
      · rename_i hempty
        rw [List.isEmpty_iff.mp hempty]
        exact hrest.cons_blank hc
      · rename_i hne
        have hword' : IsWord word.reverse := ⟨by simpa using hne, by simpa using hword⟩
        rw [wordsFrom_eq_append]
        exact .next hnoGap hword' hc hrest
    | false =>
      have hlonger := @ih (c :: word) (List.forall_mem_cons.mpr ⟨hc, hword⟩)
      rw [List.reverse_cons, List.append_assoc] at hlonger
      rw [wordsFrom_solid hc]
      exact hlonger

/-- The words that are found stand in the text, and none else do. -/
theorem lays_iff : Lays words text ↔ Text.words text = words := by
  refine ⟨Lays.words_eq, ?_⟩
  rintro rfl
  exact lays_wordsFrom (fun c hc => absurd hc List.not_mem_nil) text

end Text

namespace Filter

open Text

def Visible (hideBlank : Bool) (value : String) : Prop :=
  hideBlank = true → ∃ c ∈ value.toList, isBlank c = false

variable {hideBlank : Bool} {query other value : String} {found : List FoundString}
  {string : FoundString} {words others : List (List Char)}

theorem accepts_iff : accepts hideBlank (words.map small) value = true ↔
    Visible hideBlank value ∧ ∀ word ∈ words, lower word <:+: lower value.toList := by
  unfold accepts Visible
  by_cases hhidden : hideBlank = true ∧ value.toList.all isBlank = true
  · obtain ⟨hhide, hblank⟩ := hhidden
    rw [hhide, hblank]
    have hall := List.all_eq_true.mp hblank
    refine iff_of_false (by simp) ?_
    rintro ⟨hvisible, _⟩
    obtain ⟨c, hc, hsolid⟩ := hvisible rfl
    rw [hall c hc] at hsolid
    cases hsolid
  · have hvisible : hideBlank = true → ∃ c ∈ value.toList, isBlank c = false := by
      intro hhide
      have hsome : ¬ value.toList.all isBlank = true := fun hall => hhidden ⟨hhide, hall⟩
      simpa using hsome
    rw [if_neg (by simpa using hhidden), and_iff_right hvisible]
    simp only [List.all_map, List.all_eq_true, Function.comp_apply, contains_small_iff]
    simp only [small, String.toList_ofList]

theorem mem_strings_iff : string ∈ strings hideBlank query found ↔ string ∈ found ∧
    Visible hideBlank string.value ∧
      ∀ word ∈ Text.words query.toList, lower word <:+: lower string.value.toList := by
  rw [strings, List.mem_filter, queryWords, accepts_iff]

/-! ## Several queries -/

theorem strings_congr
    (h : ∀ word, word ∈ Text.words query.toList ↔ word ∈ Text.words other.toList) :
    strings hideBlank query found = strings hideBlank other found := by
  apply List.filter_congr
  intro string _
  rw [Bool.eq_iff_iff, queryWords, queryWords, accepts_iff, accepts_iff]
  simp only [h]

theorem strings_strings (h : ∀ word, word ∈ words ↔
      word ∈ Text.words query.toList ∨ word ∈ Text.words other.toList) :
    strings hideBlank other (strings hideBlank query found) =
      found.filter fun string => accepts hideBlank (words.map small) string.value := by
  rw [strings, strings, List.filter_filter]
  apply List.filter_congr
  intro string _
  rw [Bool.eq_iff_iff, Bool.and_eq_true, queryWords, queryWords, accepts_iff, accepts_iff,
    accepts_iff]
  simp only [h, or_imp, forall_and]
  tauto

theorem isBlank_space : isBlank ' ' = true := by decide

theorem words_joined (first second : String) :
    Text.words (first ++ " " ++ second).toList =
      Text.words first.toList ++ Text.words second.toList := by
  rw [String.toList_append, String.toList_append, List.append_assoc]
  exact words_append_blank isBlank_space first.toList second.toList

/-- Filtering by two queries with a space between them is filtering by one and then by the other, in
either order, and filtering again by a query changes nothing. What is left of a list is in its order
and has nothing twice that the list does not have twice. Only which words stand in a query matters,
not how often, in what order and with what blanks around them. -/
theorem strings_by_words (hideBlank : Bool) (found : List FoundString) :
    (∀ first second : String,
      strings hideBlank (first ++ " " ++ second) found =
          strings hideBlank second (strings hideBlank first found) ∧
        strings hideBlank (first ++ " " ++ second) found =
          strings hideBlank first (strings hideBlank second found)) ∧
    (∀ query : String,
      strings hideBlank query (strings hideBlank query found) = strings hideBlank query found ∧
        (strings hideBlank query found).Sublist found ∧
        (found.Nodup → (strings hideBlank query found).Nodup)) ∧
    ∀ query : String, (∃ words, Lays words query.toList) ∧
      ∀ (other : String) (words others : List (List Char)), Lays words query.toList →
        Lays others other.toList → (∀ word, word ∈ words ↔ word ∈ others) →
        strings hideBlank query found = strings hideBlank other found := by
  refine ⟨?_, ?_, ?_⟩
  · intro first second
    have hwords : ∀ word, word ∈ Text.words (first ++ " " ++ second).toList ↔
        word ∈ Text.words first.toList ∨ word ∈ Text.words second.toList := by
      intro word
      rw [words_joined, List.mem_append]
    constructor
    · rw [strings_strings hwords]
      rfl
    · rw [strings_strings fun word => (hwords word).trans or_comm]
      rfl
  · intro query
    refine ⟨?_, List.filter_sublist, fun hnodup => hnodup.filter _⟩
    rw [strings_strings fun word => or_self_iff.symm]
    rfl
  · intro query
    refine ⟨⟨_, lays_iff.mpr rfl⟩, ?_⟩
    intro other words others hquery hother hsame
    apply strings_congr
    rw [hquery.words_eq, hother.words_eq]
    exact hsame

/-- The string of a class that does little but load it. -/
def loaded (value : String) : FoundString :=
  { id := 0, entry := "A.class", textIndex := 1, stringIndex := 2, value, className := "A"
    method := "m()V", line := none, use := none }

theorem strings_by_words_of_greetings :
    Lays [['h', 'i'], ['y', 'o', 'u']] "\thi  you".toList ∧
      Lays [['y', 'o', 'u'], ['h', 'i'], ['y', 'o', 'u']] "you hi\u3000you\n".toList ∧
      [loaded "Hi you", loaded "you"].Nodup ∧
      (strings true "\thi  you" [loaded "Hi you", loaded "you"]).Nodup ∧
      strings true "\thi  you" [loaded "Hi you", loaded "you"] =
        strings true "you hi\u3000you\n" [loaded "Hi you", loaded "you"] := by
  have hquery : Lays [['h', 'i'], ['y', 'o', 'u']] "\thi  you".toList :=
    lays_iff.mpr (by decide)
  have hother : Lays [['y', 'o', 'u'], ['h', 'i'], ['y', 'o', 'u']] "you hi\u3000you\n".toList :=
    lays_iff.mpr (by decide)
  have hnodup : [loaded "Hi you", loaded "you"].Nodup := by decide
  obtain ⟨_, hagain, hwords⟩ := strings_by_words true [loaded "Hi you", loaded "you"]
  refine ⟨hquery, hother, hnodup, (hagain "\thi  you").2.2 hnodup, ?_⟩
  exact (hwords "\thi  you").2 _ _ _ hquery hother (by simp [or_comm])

/-! ## Words as they are written -/

theorem mem_strings_of_keepsSigmas (hmem : string ∈ found)
    (hvisible : Visible hideBlank string.value) (h : ∀ word ∈ Text.words query.toList, ∃ before after,
      string.value.toList = before ++ word ++ after ∧ KeepsSigmas before word after) :
    string ∈ strings hideBlank query found := by
  rw [mem_strings_iff]
  refine ⟨hmem, hvisible, ?_⟩
  intro word hword
  obtain ⟨before, after, hvalue, hkeeps⟩ := h word hword
  rw [hvalue]
  exact lower_infix_of_keepsSigmas hkeeps

/-- A string is kept when all words of a query stand in its value as they are written, or else some
word has a capital sigma at an edge, which has another form wherever in the value the word stands.
If such a word is the whole query, it stands in some value for which it is not found. -/
theorem kept_where_written (query : String) :
    (∀ (hideBlank : Bool) (found : List FoundString), ∀ string ∈ found,
      Visible hideBlank string.value →
      (∀ word ∈ Text.words query.toList, word <:+: string.value.toList) →
      string ∈ strings hideBlank query found ∨
        ∃ word ∈ Text.words query.toList, LooseSigma word ∧ ∀ before after,
          string.value.toList = before ++ word ++ after → ¬ KeepsSigmas before word after) ∧
    ∀ word, Text.words query.toList = [word] → LooseSigma word →
      ∃ value : String, word <:+: value.toList ∧ Visible true value ∧
        ∀ (hideBlank : Bool) (found : List FoundString),
          ∀ string ∈ strings hideBlank query found, string.value ≠ value := by
  constructor
  · intro hideBlank found string hmem hvisible hoccurs
    rw [or_iff_not_imp_right]
    intro hnone
    apply mem_strings_of_keepsSigmas hmem hvisible
    intro word hword
    by_contra hnowhere
    refine hnone ⟨word, hword, ?_, ?_⟩
    · by_contra hsteady
      obtain ⟨before, after, hvalue⟩ := hoccurs word hword
      exact hnowhere ⟨before, after, hvalue.symm,
        keepsSigmas_of_not_looseSigma hsteady before after⟩
    · intro before after hvalue hkeeps
      exact hnowhere ⟨before, after, hvalue, hkeeps⟩
  · intro word hquery hloose
    obtain ⟨whole, hwithin, hletter, hmissing⟩ := exists_not_lower_infix hloose
    refine ⟨String.ofList whole, by rwa [String.toList_ofList], ?_, ?_⟩
    · intro _
      exact ⟨'a', by rwa [String.toList_ofList], by decide⟩
    · intro hideBlank found string hmem heq
      obtain ⟨_, _, hall⟩ := mem_strings_iff.mp hmem
      rw [heq, String.toList_ofList, hquery] at hall
      exact hmissing (hall word List.mem_cons_self)

theorem kept_where_written_of_sum :
    loaded "x Σ" ∈ strings true "Σ x" [loaded "x Σ"] ∧
      Text.words "Σ".toList = [['Σ']] ∧ LooseSigma ['Σ'] ∧
      ∃ value : String, ['Σ'] <:+: value.toList ∧
        ∀ string ∈ strings true "Σ" [loaded "x Σ", loaded value], string.value ≠ value := by
  have hvisible : Visible true "x Σ" := fun _ => ⟨'x', by decide, by decide⟩
  have hoccurs : ∀ word ∈ Text.words "Σ x".toList, word <:+: "x Σ".toList := by decide
  have hquery : Text.words "Σ".toList = [['Σ']] := by decide
  have hnone : ∀ c ∈ ([] : List Char), isCaseIgnorable c = true :=
    fun c hc => absurd hc List.not_mem_nil
  have hloose : LooseSigma ['Σ'] := .opening hnone (casedNext_of_forall hnone)
  refine ⟨?_, hquery, hloose, ?_⟩
  · have hkept := (kept_where_written "Σ x").1 true [loaded "x Σ"] _ List.mem_cons_self
    apply (hkept hvisible hoccurs).resolve_right
    rintro ⟨word, hmem, hloose, hnowhere⟩
    have hwords : Text.words "Σ x".toList = [['Σ'], ['x']] := by decide
    rw [hwords, List.mem_pair] at hmem
    rcases hmem with rfl | rfl
    · apply hnowhere ['x', ' '] [] rfl
      intro front back hsplit
      obtain ⟨rfl, rfl⟩ : front = [] ∧ back = [] := by
        cases front <;> simp_all
      decide +kernel
    · exact absurd hloose.mem (by decide)
  · obtain ⟨value, hwithin, _, hmissed⟩ := (kept_where_written "Σ").2 ['Σ'] hquery hloose
    exact ⟨value, hwithin, hmissed true _⟩

/-- A word that stands in a value and is not found. -/
theorem written_word_missed :
    Text.words "ΟΔΟΣ".toList = ["ΟΔΟΣ".toList] ∧ "ΟΔΟΣ".toList <:+: "ΟΔΟΣΑ".toList ∧
      Visible true "ΟΔΟΣΑ" ∧ loaded "ΟΔΟΣΑ" ∉ strings true "ΟΔΟΣ" [loaded "ΟΔΟΣΑ"] := by
  refine ⟨by decide, by decide, fun _ => ⟨'Ο', by decide, by decide⟩, ?_⟩
  rw [mem_strings_iff]
  rintro ⟨_, _, hall⟩
  have hmissing : ¬ lower "ΟΔΟΣ".toList <:+: lower "ΟΔΟΣΑ".toList := by decide +kernel
  exact hmissing (hall _ (by decide))

end Filter

end JarText
