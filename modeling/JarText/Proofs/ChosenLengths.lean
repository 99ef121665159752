import JarText.Proofs.PrefixWords
import JarText.Zip.CodeLengths

/-!
# Lengths chosen from counts

The leaves of a tree fill the room of its root. Words that are moved up to the limit take more, and
each round of `CodeLengths.shorten` gives back one unit of it, as long as the excess is no more than
the number of the longest words. So the lengths chosen for two symbols or more leave no room, and
those of any symbols are lengths that a block may state (`CodeLengths.admitted_ofCounts`).
-/

set_option autoImplicit false

namespace JarText.Zip

/-! ## Shapes -/

namespace Shape

def leafCount : Shape → Nat
  | leaf => 1
  | node left right => left.leafCount + right.leafCount

theorem leafCount_pos (shape : Shape) : 0 < shape.leafCount := by
  induction shape with
  | leaf => exact Nat.one_pos
  | node left right ihleft ihright => exact Nat.add_pos_left ihleft _

theorem length_depths (shape : Shape) (depth : Nat) :
    (shape.depths depth).length = shape.leafCount := by
  induction shape generalizing depth with
  | leaf => rfl
  | node left right ihleft ihright => rw [depths, List.length_append, ihleft, ihright, leafCount]

theorem le_of_mem_depths {shape : Shape} {depth found : Nat} (h : found ∈ shape.depths depth) :
    depth ≤ found := by
  induction shape generalizing depth with
  | leaf => exact Nat.le_of_eq (List.mem_singleton.mp h).symm
  | node left right ihleft ihright =>
    rcases List.mem_append.mp h with h | h
    · exact Nat.le_of_succ_le (ihleft h)
    · exact Nat.le_of_succ_le (ihright h)

/-- Leaves that are moved up to a limit take no less room than the root has. -/
theorem le_sum_depths (limit : Nat) (shape : Shape) (depth : Nat) :
    2 ^ (limit - depth) ≤ ((shape.depths depth).map fun found => 2 ^ (limit - found)).sum := by
  induction shape generalizing depth with
  | leaf => exact Nat.le_refl _
  | node left right ihleft ihright =>
    have hleft := ihleft (depth + 1)
    have hright := ihright (depth + 1)
    have hroot : 2 ^ (limit - depth) ≤ 2 * 2 ^ (limit - (depth + 1)) := by
      rw [← Nat.pow_succ']
      exact Nat.pow_le_pow_right (by decide) (by omega)
    rw [depths, List.map_append, List.sum_append]
    omega

/-- The leaves above a limit take no more room than the root has. -/
theorem sum_depths_above_le (limit : Nat) (shape : Shape) (depth : Nat) :
    ((shape.depths depth).map fun found => if found < limit then 2 ^ (limit - found) else 0).sum ≤
      2 ^ (limit - depth) := by
  induction shape generalizing depth with
  | leaf =>
    rw [depths, List.map_singleton, List.sum_singleton]
    split
    · exact Nat.le_refl _
    · exact Nat.zero_le _
  | node left right ihleft ihright =>
    rw [depths, List.map_append, List.sum_append]
    by_cases hlimit : depth < limit
    · have hroot : 2 ^ (limit - depth) = 2 * 2 ^ (limit - (depth + 1)) := by
        rw [← Nat.pow_succ']
        congr 1
        omega
      have hleft := ihleft (depth + 1)
      have hright := ihright (depth + 1)
      omega
    · have hnone (shape : Shape) : ((shape.depths (depth + 1)).map fun found =>
          if found < limit then 2 ^ (limit - found) else 0).sum = 0 := by
        apply List.sum_eq_zero
        intro part hpart
        obtain ⟨found, hfound, rfl⟩ := List.mem_map.mp hpart
        have hle := le_of_mem_depths hfound
        exact if_neg (by omega)
      rw [hnone, hnone]
      exact Nat.zero_le _

def leafTotal (leaves : List Nat) (trees : List (Nat × Shape)) : Nat :=
  leaves.length + (trees.map (·.2.leafCount)).sum

theorem lightest?_spec {leaves leaves' : List Nat} {trees trees' : List (Nat × Shape)}
    {found : Nat × Shape} (h : lightest? leaves trees = some (found, leaves', trees')) :
    leafTotal leaves trees = found.2.leafCount + leafTotal leaves' trees' ∧
      leaves.length + trees.length = leaves'.length + trees'.length + 1 := by
  have hleaf {weight : Nat} : leafTotal (weight :: leaves') trees' =
      leafCount leaf + leafTotal leaves' trees' := by
    rw [leafTotal, leafTotal, List.length_cons, leafCount]
    omega
  have htree {tree : Nat × Shape} : leafTotal leaves' (tree :: trees') =
      tree.2.leafCount + leafTotal leaves' trees' := by
    rw [leafTotal, leafTotal, List.map_cons, List.sum_cons]
    omega
  cases leaves with
  | nil =>
    cases trees with
    | nil => cases h
    | cons tree trees =>
      cases h
      exact ⟨htree, rfl⟩
  | cons weight leaves =>
    cases trees with
    | nil =>
      cases h
      exact ⟨hleaf, by simp⟩
    | cons tree trees =>
      rw [lightest?] at h
      split at h
      · cases h
        exact ⟨htree, rfl⟩
      · cases h
        exact ⟨hleaf, by simp; omega⟩

theorem lightest?_eq_none {leaves : List Nat} {trees : List (Nat × Shape)}
    (h : lightest? leaves trees = none) : leaves = [] ∧ trees = [] := by
  cases leaves with
  | nil =>
    cases trees with
    | nil => exact ⟨rfl, rfl⟩
    | cons tree trees => cases h
  | cons weight leaves =>
    cases trees with
    | nil => cases h
    | cons tree trees =>
      rw [lightest?] at h
      split at h <;> cases h

theorem exists_join {fuel : Nat} {leaves : List Nat} {trees : List (Nat × Shape)}
    (hpos : 0 < leaves.length + trees.length) (hfuel : leaves.length + trees.length ≤ fuel) :
    ∃ shape, join fuel leaves trees = some shape ∧
      shape.leafCount = leafTotal leaves trees := by
  induction fuel generalizing leaves trees with
  | zero => omega
  | succ fuel ih =>
    rw [join]
    cases hfirst : lightest? leaves trees with
    | none =>
      obtain ⟨rfl, rfl⟩ := lightest?_eq_none hfirst
      cases hpos
    | some found =>
      obtain ⟨first, leaves₁, trees₁⟩ := found
      obtain ⟨htotal, hcount⟩ := lightest?_spec hfirst
      dsimp only
      cases hsecond : lightest? leaves₁ trees₁ with
      | none =>
        obtain ⟨rfl, rfl⟩ := lightest?_eq_none hsecond
        exact ⟨first.2, rfl, htotal.symm⟩
      | some found =>
        obtain ⟨second, leaves₂, trees₂⟩ := found
        obtain ⟨htotal₂, hcount₂⟩ := lightest?_spec hsecond
        have hlength : leaves₂.length
            + (trees₂ ++ [(first.1 + second.1, node first.2 second.2)]).length =
            leaves₁.length + trees₁.length := by
          rw [List.length_append, List.length_singleton]
          omega
        obtain ⟨shape, hjoin, hleaves⟩ := ih (by omega)
          (by omega : leaves₂.length
            + (trees₂ ++ [(first.1 + second.1, node first.2 second.2)]).length ≤ fuel)
        refine ⟨shape, hjoin, ?_⟩
        rw [hleaves, htotal, htotal₂, leafTotal, leafTotal, List.map_append, List.sum_append,
          List.map_singleton, List.sum_singleton, leafCount]
        omega

end Shape

namespace CodeLengths

/-! ## Tallies -/

section Tallies

variable {limit place : Nat} {weight : Nat → Nat} {counts : Array Nat}

/-- The weights of the words of a tally, where each length has a weight. -/
def measure (limit : Nat) (weight : Nat → Nat) (counts : Array Nat) : Nat :=
  ∑ depth ∈ Finset.range limit, counts.getD (depth + 1) 0 * weight (depth + 1)

theorem getD_modify {change : Nat → Nat} (hplace : place < counts.size) (other : Nat) :
    (counts.modify place change).getD other 0 =
      if place = other then change (counts.getD place 0) else counts.getD other 0 := by
  rw [Array.getD_eq_getD_getElem?, Array.getD_eq_getD_getElem?, Array.getD_eq_getD_getElem?,
    Array.getElem?_modify]
  split
  · rename_i heq
    subst heq
    rw [Array.getElem?_eq_getElem hplace]
    rfl
  · rfl

theorem measure_modify {change : Nat → Nat} (hplace : place < counts.size) (hpos : 0 < place)
    (hlimit : place ≤ limit) :
    measure limit weight (counts.modify place change) + counts.getD place 0 * weight place =
      measure limit weight counts + change (counts.getD place 0) * weight place := by
  have hmem : place - 1 ∈ Finset.range limit := Finset.mem_range.mpr (by omega)
  have hplace' : place - 1 + 1 = place := by omega
  have hrest : ∑ depth ∈ (Finset.range limit).erase (place - 1),
      (counts.modify place change).getD (depth + 1) 0 * weight (depth + 1) =
      ∑ depth ∈ (Finset.range limit).erase (place - 1),
        counts.getD (depth + 1) 0 * weight (depth + 1) := by
    apply Finset.sum_congr rfl
    intro depth hdepth
    have hne := (Finset.mem_erase.mp hdepth).1
    rw [getD_modify hplace, if_neg (by omega)]
  rw [measure, measure, ← Finset.add_sum_erase _ _ hmem, ← Finset.add_sum_erase _ _ hmem, hrest,
    hplace', getD_modify hplace, if_pos rfl]
  ring

theorem measure_replicate (limit : Nat) (weight : Nat → Nat) (count : Nat) :
    measure limit weight (Array.replicate count 0) = 0 := by
  apply Finset.sum_eq_zero
  intro depth _
  rw [Array.getD_eq_getD_getElem?, Array.getElem?_replicate]
  split <;> exact Nat.zero_mul _

theorem room_eq (limit : Nat) (counts : Array Nat) :
    room limit counts = measure limit (fun length => 2 ^ (limit - length)) counts := by
  have hrange (count : Nat) : (List.range count).foldl
      (fun room depth => room + counts.getD (depth + 1) 0 * Nat.pow 2 (limit - (depth + 1))) 0 =
      ∑ depth ∈ Finset.range count, counts.getD (depth + 1) 0 * 2 ^ (limit - (depth + 1)) := by
    induction count with
    | zero => rfl
    | succ count ih =>
      rw [List.range_succ, List.foldl_append, ih, Finset.sum_range_succ]
      rfl
  exact hrange limit

theorem sum_map_ofTally (limit : Nat) (weight : Nat → Nat) (counts : Array Nat) :
    ((ofTally limit counts).map weight).sum = measure limit weight counts := by
  have hrange (count : Nat) : (((List.range count).flatMap fun depth =>
      List.replicate (counts.getD (depth + 1) 0) (depth + 1)).map weight).sum =
      ∑ depth ∈ Finset.range count, counts.getD (depth + 1) 0 * weight (depth + 1) := by
    induction count with
    | zero => rfl
    | succ count ih =>
      rw [List.range_succ, List.flatMap_append, List.map_append, List.sum_append, ih,
        Finset.sum_range_succ, List.flatMap_singleton, List.map_replicate, List.sum_replicate,
        smul_eq_mul]
  exact hrange limit

theorem mem_ofTally {length : Nat} (h : length ∈ ofTally limit counts) :
    0 < length ∧ length ≤ limit := by
  obtain ⟨depth, hdepth, hlength⟩ := List.mem_flatMap.mp h
  have hlt := List.mem_range.mp hdepth
  rw [(List.mem_replicate.mp hlength).2]
  omega

theorem tally_spec (weight : Nat → Nat) {depths : List Nat} (hlimit : 0 < limit)
    (hpos : ∀ depth ∈ depths, 0 < depth) :
    (tally limit depths).size = limit + 1 ∧ measure limit weight (tally limit depths) =
      (depths.map fun depth => weight (min depth limit)).sum := by
  induction depths using List.reverseRecOn with
  | nil => exact ⟨Array.size_replicate, measure_replicate limit weight (limit + 1)⟩
  | append_singleton depths depth ih =>
    rw [List.forall_mem_append, List.forall_mem_singleton] at hpos
    obtain ⟨hsize, hmeasure⟩ := ih hpos.1
    have hstep := @measure_modify limit (min depth limit) weight (tally limit depths) (· + 1)
      (by omega) (by have := hpos.2; omega) (Nat.min_le_right _ _)
    rw [tally] at hsize hmeasure hstep ⊢
    rw [List.foldl_append, List.foldl_cons, List.foldl_nil, Array.size_modify, List.map_append,
      List.sum_append, List.map_singleton, List.sum_singleton, ← hmeasure]
    refine ⟨hsize, ?_⟩
    rw [Nat.succ_mul] at hstep
    omega

end Tallies

/-! ## Giving back the excess -/

section Shorten

variable {limit excess : Nat} {counts : Array Nat}

theorem lastUsed_le (counts : Array Nat) (length : Nat) : lastUsed counts length ≤ length := by
  induction length with
  | zero => exact Nat.le_refl 0
  | succ length ih =>
    rw [lastUsed]
    split
    · exact Nat.le_succ_of_le ih
    · exact Nat.le_refl _

theorem getD_lastUsed_ne_zero {length : Nat} (h : lastUsed counts length ≠ 0) :
    counts.getD (lastUsed counts length) 0 ≠ 0 := by
  induction length with
  | zero => exact absurd rfl h
  | succ length ih =>
    rw [lastUsed] at h ⊢
    split at h
    · rename_i hzero
      rw [if_pos hzero]
      exact ih h
    · rename_i hused
      rwa [if_neg hused]

theorem getD_eq_zero_of_lastUsed {length found : Nat} (h : lastUsed counts length = 0)
    (hpos : 0 < found) (hle : found ≤ length) : counts.getD found 0 = 0 := by
  induction length with
  | zero => omega
  | succ length ih =>
    rw [lastUsed] at h
    split at h
    · rename_i hzero
      rcases Nat.lt_or_eq_of_le hle with hlt | rfl
      · exact ih h (by omega)
      · exact hzero
    · cases h

/-- Where all words have the greatest length, each of them takes one unit of room. -/
theorem measure_of_lastUsed (weight : Nat → Nat) (hlimit : 0 < limit)
    (h : lastUsed counts (limit - 1) = 0) :
    measure limit weight counts = counts.getD limit 0 * weight limit := by
  obtain ⟨last, rfl⟩ : ∃ last, limit = last + 1 := ⟨limit - 1, by omega⟩
  rw [measure, Finset.sum_range_succ, Finset.sum_eq_zero, Nat.zero_add]
  intro depth hdepth
  rw [getD_eq_zero_of_lastUsed h (Nat.succ_pos depth) (Finset.mem_range.mp hdepth), Nat.zero_mul]

/-- One round moves a word a level down and one of the longest up beside it. -/
theorem measure_round (weight : Nat → Nat) {moved : Array Nat} {length : Nat}
    (hmoved : moved = ((counts.modify limit (· - 1)).modify length (· - 1)).modify (length + 1)
      (· + 2))
    (hsize : counts.size = limit + 1) (hpos : 0 < length) (hlength : length < limit)
    (hused : counts.getD length 0 ≠ 0) (hlast : counts.getD limit 0 ≠ 0) :
    moved.size = limit + 1 ∧ counts.getD limit 0 ≤ moved.getD limit 0 + 1 ∧
      measure limit weight moved + weight limit + weight length =
        measure limit weight counts + 2 * weight (length + 1) := by
  subst hmoved
  have hfirst := @measure_modify limit limit weight counts (· - 1) (by omega) (by omega)
    (Nat.le_refl _)
  have hsize₁ : (counts.modify limit (· - 1)).size = limit + 1 := by rwa [Array.size_modify]
  have hsecond := @measure_modify limit length weight (counts.modify limit (· - 1)) (· - 1)
    (by omega) hpos (Nat.le_of_lt hlength)
  have hsize₂ : ((counts.modify limit (· - 1)).modify length (· - 1)).size = limit + 1 := by
    rwa [Array.size_modify]
  have hthird := @measure_modify limit (length + 1) weight
    ((counts.modify limit (· - 1)).modify length (· - 1)) (· + 2) (by omega) (Nat.succ_pos _)
    hlength
  rw [getD_modify (by omega), if_neg (by omega)] at hsecond
  have hone {count weight : Nat} (h : count ≠ 0) :
      (count - 1) * weight + weight = count * weight := by
    rw [← Nat.succ_mul, Nat.succ_eq_add_one, Nat.sub_add_cancel (Nat.pos_of_ne_zero h)]
  have hfirst' := @hone _ (weight limit) hlast
  have hsecond' := @hone _ (weight length) hused
  refine ⟨by rw [Array.size_modify, hsize₂], ?_, ?_⟩
  · have hlower : ((counts.modify limit (· - 1)).modify length (· - 1)).getD limit 0 =
        counts.getD limit 0 - 1 := by
      rw [getD_modify (by omega), if_neg (by omega), getD_modify (by omega), if_pos rfl]
    rw [getD_modify (by omega)]
    split
    · rename_i heq
      rw [heq, hlower]
      omega
    · rw [hlower]
      omega
  · have htwo {count weight : Nat} : (count + 2) * weight = count * weight + 2 * weight :=
      Nat.add_mul count 2 weight
    rw [htwo] at hthird
    omega

theorem shorten_spec (hlimit : 0 < limit) (hsize : counts.size = limit + 1)
    (hcount : measure limit (fun _ => 1) counts ≤ 2 ^ limit)
    (hroom : measure limit (fun length => 2 ^ (limit - length)) counts = 2 ^ limit + excess)
    (hexcess : excess ≤ counts.getD limit 0) :
    measure limit (fun _ => 1) (shorten limit excess counts) = measure limit (fun _ => 1) counts ∧
      measure limit (fun length => 2 ^ (limit - length)) (shorten limit excess counts) =
        2 ^ limit := by
  induction excess generalizing counts with
  | zero => exact ⟨rfl, hroom⟩
  | succ excess ih =>
    have hlength : lastUsed counts (limit - 1) ≠ 0 := by
      intro hnone
      have hone := measure_of_lastUsed (fun _ => 1) hlimit hnone
      have hunit := measure_of_lastUsed (fun length => 2 ^ (limit - length)) hlimit hnone
      rw [Nat.sub_self, Nat.pow_zero] at hunit
      omega
    have hle := lastUsed_le counts (limit - 1)
    obtain ⟨hsize', hlast', hmoved⟩ := measure_round (fun _ => 1) rfl hsize
      (Nat.pos_of_ne_zero hlength) (by omega) (getD_lastUsed_ne_zero hlength) (by omega)
    obtain ⟨_, _, hroom'⟩ := measure_round (fun length => 2 ^ (limit - length)) rfl hsize
      (Nat.pos_of_ne_zero hlength) (by omega) (getD_lastUsed_ne_zero hlength) (by omega)
    have hhalf : 2 ^ (limit - lastUsed counts (limit - 1)) =
        2 * 2 ^ (limit - (lastUsed counts (limit - 1) + 1)) := by
      rw [← Nat.pow_succ']
      congr 1
      omega
    rw [Nat.sub_self, Nat.pow_zero, hhalf] at hroom'
    obtain ⟨hcount', hroom''⟩ := ih hsize' (by omega) (by omega) (by omega)
    rw [shorten, if_neg hlength]
    exact ⟨by omega, hroom''⟩

end Shorten

/-! ## Lengths for weights -/

section Weights

variable {limit : Nat} {weights : List Nat}

theorem measure_limit (hlimit : 0 < limit) (counts : Array Nat) :
    measure limit (fun length => if length = limit then 1 else 0) counts = counts.getD limit 0 := by
  obtain ⟨last, rfl⟩ : ∃ last, limit = last + 1 := ⟨limit - 1, by omega⟩
  rw [measure, Finset.sum_range_succ, Finset.sum_eq_zero, Nat.zero_add, if_pos rfl, Nat.mul_one]
  intro depth hdepth
  have hlt := Finset.mem_range.mp hdepth
  rw [if_neg (by omega), Nat.mul_zero]

/-- Moving words up to the limit takes no more room than there are words at it. -/
theorem tally_excess (hlimit : 0 < limit) {shape : Shape}
    (hpos : ∀ depth ∈ shape.depths 0, 0 < depth) :
    2 ^ limit ≤ room limit (tally limit (shape.depths 0)) ∧
      room limit (tally limit (shape.depths 0)) ≤
        2 ^ limit + (tally limit (shape.depths 0)).getD limit 0 := by
  have hroom := (tally_spec (fun length => 2 ^ (limit - length)) hlimit hpos).2
  have hlongest := (tally_spec (fun length => if length = limit then 1 else 0) hlimit hpos).2
  have hroot := Shape.le_sum_depths limit shape 0
  have habove := Shape.sum_depths_above_le limit shape 0
  have hshare : ((shape.depths 0).map fun depth => 2 ^ (limit - min depth limit)) =
      (shape.depths 0).map fun depth => 2 ^ (limit - depth) :=
    List.map_congr_left fun depth _ => by congr 1; omega
  have hsplit : ((shape.depths 0).map fun depth => 2 ^ (limit - depth)) =
      (shape.depths 0).map fun depth => (if depth < limit then 2 ^ (limit - depth) else 0)
        + if min depth limit = limit then 1 else 0 := by
    apply List.map_congr_left
    intro depth _
    by_cases hdepth : depth < limit
    · rw [if_pos hdepth, if_neg (by omega), Nat.add_zero]
    · rw [if_neg hdepth, if_pos (by omega), Nat.sub_eq_zero_of_le (Nat.not_lt.mp hdepth),
        Nat.zero_add, Nat.pow_zero]
  rw [measure_limit hlimit] at hlongest
  rw [hshare] at hroom
  rw [room_eq, hroom]
  refine ⟨hroot, ?_⟩
  rw [hsplit, List.sum_map_add, hlongest]
  exact Nat.add_le_add_right habove _

theorem ofWeights_cases (weights : List Nat) (hlimit : 0 < limit) (hcount : weights.length ≤ 2 ^ limit) :
    (weights = [] ∧ ofWeights limit weights = []) ∨
      (weights.length = 1 ∧ ofWeights limit weights = [1]) ∨
      (1 < weights.length ∧ (ofWeights limit weights).length = weights.length ∧
        (∀ length ∈ ofWeights limit weights, 0 < length ∧ length ≤ limit) ∧
        ((ofWeights limit weights).map fun length => 2 ^ (limit - length)).sum = 2 ^ limit) := by
  rcases Nat.eq_zero_or_pos weights.length with hnone | hpos
  · obtain rfl := List.length_eq_zero_iff.mp hnone
    exact .inl ⟨rfl, rfl⟩
  obtain ⟨shape, hshape, hleaves⟩ := @Shape.exists_join (weights.length + 1) weights [] (by simpa)
    (by simp)
  have htotal : Shape.leafTotal weights [] = weights.length := rfl
  rw [htotal] at hleaves
  cases shape with
  | leaf =>
    refine .inr (.inl ⟨hleaves.symm, ?_⟩)
    rw [ofWeights, Shape.ofWeights?, hshape]
  | node left right =>
    refine .inr (.inr ?_)
    obtain ⟨shape, hnode⟩ : ∃ shape, shape = Shape.node left right := ⟨_, rfl⟩
    obtain ⟨counts, hcounts⟩ : ∃ counts, counts = tally limit (shape.depths 0) := ⟨_, rfl⟩
    obtain ⟨chosen, hchosen⟩ : ∃ chosen,
      chosen = shorten limit (room limit counts - 2 ^ limit) counts := ⟨_, rfl⟩
    have hlengths : ofWeights limit weights = (ofTally limit chosen).reverse := by
      rw [ofWeights, Shape.ofWeights?, hshape, hchosen, hcounts, hnode]
      rfl
    have hleft := left.leafCount_pos
    have hright := right.leafCount_pos
    have htwo : 1 < weights.length := by
      rw [← hleaves, Shape.leafCount]
      omega
    have hdepths : ∀ depth ∈ shape.depths 0, 0 < depth := by
      intro depth hdepth
      rw [hnode, Shape.depths, List.mem_append] at hdepth
      rcases hdepth with h | h <;> exact Shape.le_of_mem_depths h
    have hlength : (shape.depths 0).length = weights.length := by
      rw [Shape.length_depths, hnode, hleaves]
    obtain ⟨hsize, hcounted⟩ := tally_spec (fun _ => 1) hlimit hdepths
    obtain ⟨hroot, hexcess⟩ := tally_excess hlimit hdepths
    rw [List.map_const', List.sum_replicate, smul_eq_mul, Nat.mul_one, hlength] at hcounted
    rw [← hcounts] at hsize hcounted hroot hexcess
    obtain ⟨hkept, hfull⟩ := shorten_spec hlimit hsize (hcounted.symm ▸ hcount)
      (by rw [← room_eq]; omega : _ = 2 ^ limit + (room limit counts - 2 ^ limit)) (by omega)
    have hnumber := sum_map_ofTally limit (fun _ => 1) chosen
    rw [List.map_const', List.sum_replicate, smul_eq_mul, Nat.mul_one, hchosen, hkept, hcounted,
      ← hchosen] at hnumber
    rw [hlengths]
    refine ⟨htwo, ?_, ?_, ?_⟩
    · rw [List.length_reverse, hnumber]
    · intro length hmem
      exact mem_ofTally (List.mem_reverse.mp hmem)
    · rw [List.map_reverse, List.sum_reverse, sum_map_ofTally, hchosen, hfull]

end Weights

/-! ## Lengths for counts -/

section Counts

variable {limit place other : Nat} {counts : List Nat}

theorem perm_filter_set (lengths : List Nat) (h : lengths[place]? = some 0) (length : Nat) :
    ((lengths.set place length).filter (· ≠ 0)).Perm
      ([length].filter (· ≠ 0) ++ lengths.filter (· ≠ 0)) := by
  obtain ⟨hplace, hzero⟩ := List.getElem?_eq_some_iff.mp h
  have hsplit : lengths = lengths.take place ++ 0 :: lengths.drop (place + 1) := by
    rw [← hzero, List.getElem_cons_drop, List.take_append_drop]
  have hset : lengths.set place length =
      lengths.take place ++ ([length] ++ lengths.drop (place + 1)) := by
    rw [List.set_eq_take_append_cons_drop, if_pos hplace]
    rfl
  have hkept : lengths.filter (· ≠ 0) =
      (lengths.take place).filter (· ≠ 0) ++ (lengths.drop (place + 1)).filter (· ≠ 0) := by
    conv_lhs => rw [hsplit]
    rw [List.filter_append, List.filter_cons_of_neg (by simp)]
  rw [hset, hkept, List.filter_append, List.filter_append]
  exact List.perm_append_comm_assoc _ _ _

/-- Lengths that are set at places of their own are the ones that are not zero. -/
theorem perm_filter_foldl (items : List (Nat × Nat)) (table : Array Nat)
    (hkeys : (items.map (·.1)).Nodup) (hzero : ∀ item ∈ items, table[item.1]? = some 0) :
    ((items.foldl (fun table item => table.setIfInBounds item.1 item.2) table).toList.filter
      (· ≠ 0)).Perm ((items.map (·.2)).filter (· ≠ 0) ++ table.toList.filter (· ≠ 0)) := by
  induction items generalizing table with
  | nil => exact .refl _
  | cons item items ih =>
    rw [List.map_cons, List.nodup_cons] at hkeys
    obtain ⟨hitem, hitems⟩ := List.forall_mem_cons.mp hzero
    have hset := perm_filter_set table.toList (by rwa [Array.getElem?_toList]) item.2
    have hrest := ih (table.setIfInBounds item.1 item.2) hkeys.2 (by
      intro found hfound
      have hne : item.1 ≠ found.1 := fun heq =>
        hkeys.1 (heq ▸ List.mem_map_of_mem (f := Prod.fst) hfound)
      rw [Array.getElem?_setIfInBounds_ne hne]
      exact hitems found hfound)
    rw [List.foldl_cons]
    refine hrest.trans ?_
    rw [Array.toList_setIfInBounds, List.map_cons]
    refine ((List.perm_append_left_iff _).mpr hset).trans ?_
    rw [← List.singleton_append (l := items.map (·.2)), List.filter_append, List.append_assoc]
    exact List.perm_append_comm_assoc _ _ _

/-- The counts that are not zero, with their symbols, in the order in which lengths are given. -/
def ranked (counts : List Nat) : List (Nat × Nat) :=
  (counts.zipIdx.filter (0 < ·.1)).mergeSort fun a b => a.1 < b.1 || (a.1 == b.1 && a.2 ≤ b.2)

theorem mem_ranked_iff {item : Nat × Nat} :
    item ∈ ranked counts ↔ counts[item.2]? = some item.1 ∧ 0 < item.1 := by
  rw [ranked, List.mem_mergeSort, List.mem_filter, List.mem_zipIdx_iff_getElem?, decide_eq_true_eq]

theorem nodup_ranked (counts : List Nat) : ((ranked counts).map (·.2)).Nodup := by
  have hperm := (List.mergeSort_perm (counts.zipIdx.filter (0 < ·.1))
    fun a b => a.1 < b.1 || (a.1 == b.1 && a.2 ≤ b.2)).map (·.2)
  have hrange : (counts.zipIdx.map (·.2)).Nodup := by
    rw [List.zipIdx_map_snd]
    exact List.nodup_range'
  exact (hperm.nodup_iff).mpr (hrange.sublist (List.filter_sublist.map _))

theorem length_ranked_le (counts : List Nat) : (ranked counts).length ≤ counts.length := by
  rw [ranked, List.length_mergeSort]
  refine List.length_filter_le _ _ |>.trans ?_
  rw [List.length_zipIdx]

theorem length_ofWeights {weights : List Nat} (hlimit : 0 < limit)
    (hcount : weights.length ≤ 2 ^ limit) : (ofWeights limit weights).length = weights.length := by
  rcases ofWeights_cases weights hlimit hcount with ⟨rfl, h⟩ | ⟨hone, h⟩ | ⟨_, h, _⟩
  · rw [h]
  · rw [h, hone]
    rfl
  · exact h

theorem pos_of_mem_ofWeights {weights : List Nat} {length : Nat} (hlimit : 0 < limit)
    (hcount : weights.length ≤ 2 ^ limit) (h : length ∈ ofWeights limit weights) :
    0 < length ∧ length ≤ limit := by
  rcases ofWeights_cases weights hlimit hcount with ⟨_, hweights⟩ | ⟨_, hweights⟩ | ⟨_, _, hall, _⟩
  · rw [hweights] at h
    cases h
  · rw [hweights, List.mem_singleton] at h
    omega
  · exact hall length h

def rankedLengths (limit : Nat) (counts : List Nat) : List (Nat × Nat) :=
  ((ranked counts).map (·.2)).zip (ofWeights limit ((ranked counts).map (·.1)))

theorem ofCounts_eq (limit : Nat) (counts : List Nat) : ofCounts limit counts =
    ((rankedLengths limit counts).foldl (fun table item => table.setIfInBounds item.1 item.2)
      (Array.replicate counts.length 0)).toList := rfl

theorem length_ofCounts (limit : Nat) (counts : List Nat) :
    (ofCounts limit counts).length = counts.length := by
  rw [ofCounts, Array.length_toList, PrefixCode.size_foldl_setIfInBounds, Array.size_replicate]

variable (hlimit : 0 < limit) (hcount : counts.length ≤ 2 ^ limit)
include hlimit hcount

theorem map_fst_rankedLengths :
    (rankedLengths limit counts).map (·.1) = (ranked counts).map (·.2) := by
  have hle := length_ranked_le counts
  refine List.map_fst_zip ?_
  rw [length_ofWeights hlimit (by rw [List.length_map]; omega), List.length_map, List.length_map]

theorem map_snd_rankedLengths : (rankedLengths limit counts).map (·.2) =
    ofWeights limit ((ranked counts).map (·.1)) := by
  have hle := length_ranked_le counts
  refine List.map_snd_zip ?_
  rw [length_ofWeights hlimit (by rw [List.length_map]; omega), List.length_map, List.length_map]

theorem perm_filter_ofCounts : ((ofCounts limit counts).filter (· ≠ 0)).Perm
    (ofWeights limit ((ranked counts).map (·.1))) := by
  have hle := length_ranked_le counts
  have hkeys := map_fst_rankedLengths hlimit hcount
  have hperm := perm_filter_foldl (rankedLengths limit counts)
    (Array.replicate counts.length 0) (by rw [hkeys]; exact nodup_ranked counts) (by
      intro item hitem
      have hkey : item.1 ∈ (ranked counts).map (·.2) := by
        rw [← hkeys]
        exact List.mem_map_of_mem hitem
      obtain ⟨found, hfound, hplace⟩ := List.mem_map.mp hkey
      obtain ⟨hget, _⟩ := mem_ranked_iff.mp hfound
      rw [← hplace, Array.getElem?_replicate, if_pos (List.getElem?_eq_some_iff.mp hget).1])
  have hnone : (Array.replicate counts.length 0).toList.filter (· ≠ 0) = [] := by
    rw [Array.toList_replicate, List.filter_replicate_of_neg (by simp)]
  have hall : (ofWeights limit ((ranked counts).map (·.1))).filter (· ≠ 0) =
      ofWeights limit ((ranked counts).map (·.1)) := by
    rw [List.filter_eq_self]
    intro length hlength
    have hpos := (pos_of_mem_ofWeights hlimit (by rw [List.length_map]; omega) hlength).1
    simpa using Nat.ne_of_gt hpos
  rwa [map_snd_rankedLengths hlimit hcount, hall, hnone, List.append_nil, ← ofCounts_eq] at hperm

theorem le_limit_of_mem_ofCounts {length : Nat} (h : length ∈ ofCounts limit counts) :
    length ≤ limit := by
  by_cases hzero : length = 0
  · omega
  · have hle := length_ranked_le counts
    have hmem := (perm_filter_ofCounts hlimit hcount).mem_iff.mp
      (List.mem_filter.mpr ⟨h, by simpa using hzero⟩)
    exact (pos_of_mem_ofWeights hlimit (by rw [List.length_map]; omega) hmem).2

/-- A symbol that occurs has a word. -/
theorem ofCounts_ne_zero (hused : 0 < counts[place]?.getD 0) :
    (ofCounts limit counts)[place]?.getD 0 ≠ 0 := by
  obtain ⟨count, hget⟩ : ∃ count, counts[place]? = some count :=
    Option.ne_none_iff_exists'.mp fun h => by rw [h] at hused; cases hused
  rw [hget, Option.getD_some] at hused
  have hkey : place ∈ (rankedLengths limit counts).map (·.1) := by
    rw [map_fst_rankedLengths hlimit hcount]
    exact List.mem_map.mpr ⟨(count, place), mem_ranked_iff.mpr ⟨hget, hused⟩, rfl⟩
  obtain ⟨length, hitem, hlength⟩ := PrefixCode.getElem?_foldl_setIfInBounds
    (Array.replicate counts.length 0)
    (by rw [Array.size_replicate]; exact (List.getElem?_eq_some_iff.mp hget).1) hkey
  have hle := length_ranked_le counts
  have hmem : length ∈ ofWeights limit ((ranked counts).map (·.1)) := by
    rw [← map_snd_rankedLengths hlimit hcount]
    exact List.mem_map_of_mem (f := Prod.snd) hitem
  rw [ofCounts_eq, Array.getElem?_toList, hlength, Option.getD_some]
  exact Nat.ne_of_gt (pos_of_mem_ofWeights hlimit (by rw [List.length_map]; omega) hmem).1

variable (hmax : limit ≤ PrefixCode.maxLength)
include hmax

/-- The words of two symbols or more leave no room. -/
theorem roomOf_ofCounts (hranked : 1 < (ranked counts).length) :
    PrefixCode.roomOf (ofCounts limit counts) = 2 ^ PrefixCode.maxLength := by
  have hle := length_ranked_le counts
  rcases ofWeights_cases ((ranked counts).map (·.1)) hlimit
    (by rw [List.length_map]; omega) with ⟨hnone, _⟩ | ⟨hone, _⟩ | ⟨_, _, hall, hsum⟩
  · rw [← List.length_eq_zero_iff, List.length_map] at hnone
    omega
  · rw [List.length_map] at hone
    omega
  · have hshare : (ofWeights limit ((ranked counts).map (·.1))).map PrefixCode.share =
        (ofWeights limit ((ranked counts).map (·.1))).map fun length =>
          2 ^ (limit - length) * 2 ^ (PrefixCode.maxLength - limit) := by
      apply List.map_congr_left
      intro length hlength
      obtain ⟨hpos, hlength⟩ := hall length hlength
      rw [PrefixCode.share_of_pos (Nat.ne_of_gt hpos), ← Nat.pow_add]
      congr 1
      omega
    have hperm := ((perm_filter_ofCounts hlimit hcount).map PrefixCode.share).sum_eq
    rw [hshare, List.sum_map_mul_right, hsum, ← Nat.pow_add, Nat.add_sub_cancel' hmax] at hperm
    rw [← PrefixCode.roomOf_filter_ne_zero]
    exact hperm

theorem roomOf_ofCounts_of_two (hused : 0 < counts[place]?.getD 0)
    (hother : 0 < counts[other]?.getD 0) (hne : place ≠ other) :
    PrefixCode.roomOf (ofCounts limit counts) = 2 ^ PrefixCode.maxLength := by
  have hmem {place : Nat} (hused : 0 < counts[place]?.getD 0) :
      place ∈ (ranked counts).map (·.2) := by
    obtain ⟨count, hget⟩ : ∃ count, counts[place]? = some count :=
      Option.ne_none_iff_exists'.mp fun h => by rw [h] at hused; cases hused
    rw [hget, Option.getD_some] at hused
    exact List.mem_map.mpr ⟨(count, place), mem_ranked_iff.mpr ⟨hget, hused⟩, rfl⟩
  have hpair : [place, other].Nodup := by simp [hne]
  have hsub : [place, other].Subperm ((ranked counts).map (·.2)) := hpair.subperm (by
    intro found hfound
    rcases List.mem_pair.mp hfound with rfl | rfl
    · exact hmem hused
    · exact hmem hother)
  have hlength := hsub.length_le
  rw [List.length_map] at hlength
  exact roomOf_ofCounts hlimit hcount hmax hlength

/-- The lengths chosen for any counts are such as a block may state. -/
theorem admitted_ofCounts : PrefixCode.Admitted (ofCounts limit counts) := by
  have hle := length_ranked_le counts
  have hperm := perm_filter_ofCounts hlimit hcount
  rcases ofWeights_cases ((ranked counts).map (·.1)) hlimit
    (by rw [List.length_map]; omega) with ⟨_, hnone⟩ | ⟨_, hone⟩ | ⟨htwo, _⟩
  · rw [hnone] at hperm
    exact .wordless hperm.eq_nil
  · rw [hone] at hperm
    exact .single (List.perm_singleton.mp hperm)
  · rw [List.length_map] at htwo
    exact .full (fun length h => (le_limit_of_mem_ofCounts hlimit hcount h).trans hmax)
      (roomOf_ofCounts hlimit hcount hmax htwo)

end Counts

end CodeLengths

end JarText.Zip
