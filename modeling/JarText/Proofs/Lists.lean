import Mathlib.Algebra.GroupWithZero.Nat
import Mathlib.Data.List.Forall2
import Mathlib.Data.List.Nodup

/-!
# Lists

The first occurrences of a list, its elements grouped by their keys, the entries of a list of pairs
whose keys are distinct, lists that are related element by element, and lists up to the first element
that fails a test.
-/

set_option autoImplicit false

namespace JarText

variable {α β : Type}

section FirstOccurrences

variable [BEq α] [LawfulBEq α]

theorem eraseDups_filter (p : α → Bool) (as : List α) :
    (as.filter p).eraseDups = as.eraseDups.filter p := by
  induction hn : as.length using Nat.strongRecOn generalizing as with
  | _ n ih =>
    cases as with
    | nil => rfl
    | cons a rest =>
      have hlt : (rest.filter fun b => !b == a).length < n := by
        have := List.length_filter_le (fun b => !b == a) rest
        rw [← hn, List.length_cons]
        omega
      have hrest := ih _ hlt (rest.filter fun b => !b == a) rfl
      rw [List.eraseDups_cons]
      by_cases hp : p a
      · rw [List.filter_cons_of_pos hp, List.filter_cons_of_pos hp, List.eraseDups_cons, ← hrest]
        simp only [List.filter_filter, Bool.and_comm]
      · rw [List.filter_cons_of_neg hp, List.filter_cons_of_neg hp, ← hrest, List.filter_filter]
        congr 1
        apply List.filter_congr
        intro other _
        by_cases hother : other = a
        · simp [hother, hp]
        · simp [hother]

theorem nodup_eraseDups (as : List α) : as.eraseDups.Nodup := by
  induction as with
  | nil => exact List.nodup_nil
  | cons a rest ih =>
    rw [List.eraseDups_cons, eraseDups_filter]
    refine List.nodup_cons.mpr ⟨?_, ih.filter _⟩
    intro hmem
    simpa using (List.mem_filter.mp hmem).2

end FirstOccurrences

/-- Grouped by their keys, the elements of a list are in another order. -/
theorem perm_flatMap_filter_key [BEq β] [LawfulBEq β] (key : α → β) {keys : List β} {as : List α}
    (hnodup : keys.Nodup) (h : ∀ a ∈ as, key a ∈ keys) :
    (keys.flatMap fun k => as.filter (key · == k)).Perm as := by
  induction keys generalizing as with
  | nil =>
    cases as with
    | nil => exact .nil
    | cons a rest => cases h a List.mem_cons_self
  | cons k keys ih =>
    obtain ⟨hfresh, hkeys⟩ := List.nodup_cons.mp hnodup
    have hothers : ∀ a ∈ as.filter fun a => !(key a == k), key a ∈ keys := by
      intro a ha
      obtain ⟨hmem, hne⟩ := List.mem_filter.mp ha
      rcases List.mem_cons.mp (h a hmem) with heq | hkey
      · simp [heq] at hne
      · exact hkey
    have hrest : (keys.flatMap fun k' => as.filter (key · == k')) =
        keys.flatMap fun k' => (as.filter fun a => !(key a == k)).filter (key · == k') := by
      apply List.flatMap_congr
      intro k' hk'
      rw [List.filter_filter]
      congr 1
      funext a
      by_cases hkey : key a = k'
      · have hne : k' ≠ k := fun heq => hfresh (heq ▸ hk')
        simp [hkey, hne]
      · simp [hkey]
    rw [List.flatMap_cons, hrest]
    exact ((ih hkeys hothers).append_left _).trans (List.filter_append_perm (key · == k) as)

theorem lookup_eq_some_iff_mem [BEq α] [LawfulBEq α] {entries : List (α × β)} {key : α} {value : β}
    (hnodup : (entries.map (·.1)).Nodup) :
    entries.lookup key = some value ↔ (key, value) ∈ entries := by
  constructor
  · intro h
    obtain ⟨front, back, rfl, _⟩ := List.lookup_eq_some_iff.mp h
    simp
  · intro h
    induction entries with
    | nil => cases h
    | cons entry rest ih =>
      obtain ⟨hfresh, hrest⟩ := List.nodup_cons.mp hnodup
      rcases List.mem_cons.mp h with rfl | h
      · exact List.lookup_cons_self
      · have hne : (key == entry.1) = false := by
          rw [beq_eq_false_iff_ne]
          rintro rfl
          exact hfresh (List.mem_map.mpr ⟨_, h, rfl⟩)
        rw [List.lookup_cons, hne]
        exact ih hrest h

theorem mem_of_lookup_eq_some [BEq α] [LawfulBEq α] {items : List (α × β)} {key : α} {value : β}
    (h : items.lookup key = some value) : (key, value) ∈ items := by
  obtain ⟨front, back, rfl, _⟩ := List.lookup_eq_some_iff.mp h
  exact List.mem_append_right front List.mem_cons_self

theorem lookup_filter_ne [DecidableEq α] (items : List (α × β)) {key other : α} (h : other ≠ key) :
    (items.filter (·.1 ≠ key)).lookup other = items.lookup other := by
  induction items with
  | nil => rfl
  | cons item items ih =>
    by_cases hitem : item.1 = key
    · have hother : (other == item.1) = false := beq_eq_false_iff_ne.mpr (hitem ▸ h)
      rw [List.filter_cons_of_neg (by simpa using hitem), List.lookup_cons, hother, ih]
    · rw [List.filter_cons_of_pos (by simpa using hitem), List.lookup_cons, List.lookup_cons, ih]

theorem lookup_put [DecidableEq α] (items : List (α × β)) (key other : α) (value : β) :
    ((key, value) :: items.filter (·.1 ≠ key)).lookup other =
      if other = key then some value else items.lookup other := by
  rw [List.lookup_cons]
  by_cases hother : other = key
  · rw [beq_iff_eq.mpr hother, if_pos hother]
  · rw [beq_eq_false_iff_ne.mpr hother, if_neg hother]
    exact lookup_filter_ne items hother

theorem lookup_map_snd [BEq α] [LawfulBEq α] {γ : Type} (items : List (α × β)) (f : α → β → γ)
    (key : α) :
    (items.map fun item => (item.1, f item.1 item.2)).lookup key = (items.lookup key).map (f key) := by
  induction items with
  | nil => rfl
  | cons item items ih =>
    rw [List.map_cons, List.lookup_cons, List.lookup_cons, ih]
    by_cases hkey : key = item.1
    · rw [beq_iff_eq.mpr hkey, hkey]
      rfl
    · rw [beq_eq_false_iff_ne.mpr hkey]

theorem map_snd_find? [BEq α] [LawfulBEq α] (items : List (α × β)) (key : α) :
    (items.find? (·.1 == key)).map (·.2) = items.lookup key := by
  induction items with
  | nil => rfl
  | cons item items ih =>
    have hcomm : (item.1 == key) = (key == item.1) := BEq.comm
    rw [List.find?_cons, List.lookup_cons, hcomm]
    cases key == item.1 with
    | true => rfl
    | false => exact ih

theorem lookup_reverse [BEq α] [LawfulBEq α] {items : List (α × β)} (h : (items.map (·.1)).Nodup)
    (key : α) : items.reverse.lookup key = items.lookup key := by
  have hreverse : (items.reverse.map (·.1)).Nodup := by
    rw [List.map_reverse]
    exact List.nodup_reverse.mpr h
  rw [Option.ext_iff]
  intro value
  rw [lookup_eq_some_iff_mem hreverse, lookup_eq_some_iff_mem h, List.mem_reverse]

theorem exists_of_mem_right {R : α → β → Prop} {as : List α} {bs : List β} {b : β}
    (h : List.Forall₂ R as bs) (hb : b ∈ bs) : ∃ a ∈ as, R a b := by
  induction h with
  | nil => cases hb
  | cons hab _ ih =>
    rcases List.mem_cons.mp hb with rfl | hb
    · exact ⟨_, List.mem_cons_self, hab⟩
    · obtain ⟨a, ha, hR⟩ := ih hb
      exact ⟨a, List.mem_cons_of_mem _ ha, hR⟩

/-- What one view of the elements tells, every view tells that follows from it. -/
theorem map_eq_map_of_imp {γ δ : Type} {f : α → γ} {g : α → δ} (h : ∀ {a b}, f a = f b → g a = g b)
    {as bs : List α} (hmap : as.map f = bs.map f) : as.map g = bs.map g := by
  induction as generalizing bs with
  | nil =>
    cases bs with
    | nil => rfl
    | cons b bs => cases hmap
  | cons a as ih =>
    cases bs with
    | nil => cases hmap
    | cons b bs =>
      obtain ⟨hhead, htail⟩ := List.cons.inj hmap
      rw [List.map_cons, List.map_cons, h hhead, ih htail]

theorem forall_or_exists_first (p : α → Prop) (as : List α) :
    (∀ a ∈ as, p a) ∨ ∃ front a back, as = front ++ a :: back ∧ (∀ b ∈ front, p b) ∧ ¬ p a := by
  induction as with
  | nil => exact .inl (List.forall_mem_nil p)
  | cons a as ih =>
    by_cases ha : p a
    · rcases ih with hall | ⟨front, b, back, rfl, hfront, hb⟩
      · exact .inl (List.forall_mem_cons.mpr ⟨ha, hall⟩)
      · exact .inr ⟨a :: front, b, back, rfl, List.forall_mem_cons.mpr ⟨ha, hfront⟩, hb⟩
    · exact .inr ⟨[], a, as, rfl, List.forall_mem_nil p, ha⟩

section TakeThrough

variable {p q : α → Bool} {front back : List α}

/-- The elements of a list up to the first that fails a test, that one included. -/
def takeThrough (p : α → Bool) : List α → List α
  | [] => []
  | a :: rest => a :: if p a then takeThrough p rest else []

theorem takeThrough_append_of_forall (h : ∀ a ∈ front, p a = true) :
    takeThrough p (front ++ back) = front ++ takeThrough p back := by
  induction front with
  | nil => rfl
  | cons a front ih =>
    obtain ⟨ha, hrest⟩ := List.forall_mem_cons.mp h
    rw [List.cons_append, takeThrough, if_pos ha, ih hrest, List.cons_append]

theorem takeThrough_of_forall (h : ∀ a ∈ front, p a = true) : takeThrough p front = front := by
  have happend : takeThrough p (front ++ []) = front ++ [] := takeThrough_append_of_forall h
  simpa using happend

theorem takeThrough_append_of_not (h : ¬ ∀ a ∈ front, p a = true) :
    takeThrough p (front ++ back) = takeThrough p front := by
  induction front with
  | nil => exact absurd (List.forall_mem_nil _) h
  | cons a front ih =>
    rw [List.cons_append, takeThrough, takeThrough]
    by_cases ha : p a = true
    · rw [if_pos ha, if_pos ha, ih fun hrest => h (List.forall_mem_cons.mpr ⟨ha, hrest⟩)]
    · rw [if_neg ha, if_neg ha]

theorem takeThrough_congr {as : List α} (h : ∀ a ∈ as, p a = q a) :
    takeThrough p as = takeThrough q as := by
  induction as with
  | nil => rfl
  | cons a as ih =>
    obtain ⟨ha, hrest⟩ := List.forall_mem_cons.mp h
    rw [takeThrough, takeThrough, ha, ih hrest]

theorem mem_of_mem_takeThrough {a : α} {as : List α} (h : a ∈ takeThrough p as) : a ∈ as := by
  induction as with
  | nil => exact h
  | cons b as ih =>
    rcases List.mem_cons.mp h with rfl | hrest
    · exact List.mem_cons_self
    · split at hrest
      · exact List.mem_cons_of_mem b (ih hrest)
      · cases hrest

end TakeThrough

end JarText
