/-
The two indexes of a shape, over its edges and over its keys.

Both are linear-probing tables that are never more than half full. `IndexHolds` and `FindHolds` say what a table holds;
`IndexHolds.find_some`, `find_none` and `findIndexLookup_spec` are what a lookup then answers. They are all that the tree
needs of the tables.
-/
import Maligator.Shape.Tree

namespace Maligator.Shape

open Option Function Finset

open GroupTable (count count_update exists_not_of_count_lt)

/-! ## Keys -/

/-- what a property is named by: a string by its content, a symbol by its identity; never a BigInt -/
def IsPropertyKey (key : MalValue) : Prop := valueIsBigint key = false

variable {left right : MalValue}

section

variable (env : KeyEnv) (hl : IsPropertyKey left) (hr : IsPropertyKey right) (h : env.den left = env.den right)
include hl hr h

theorem den_cases :
    valueIsString left = true ∧ valueIsString right = true ∧ env.stringUnits left = env.stringUnits right ∨
      valueIsString left = false ∧ valueIsString right = false ∧ left = right := by
  unfold IsPropertyKey at hl hr
  unfold KeyEnv.den at h
  cases hsl : valueIsString left <;> cases hsr : valueIsString right <;> simp_all

theorem transitionHash_eq (attrs : BitVec 8) : transitionHash env left attrs = transitionHash env right attrs := by
  unfold transitionHash
  rcases den_cases env hl hr h with ⟨hsl, hsr, hunits⟩ | ⟨-, -, rfl⟩
  · rw [if_pos hsl, if_pos hsr, hunits]
  · rfl

theorem findKeyHash_eq : findKeyHash env left = findKeyHash env right := by
  unfold findKeyHash
  rcases den_cases env hl hr h with ⟨hsl, hsr, hunits⟩ | ⟨-, -, rfl⟩
  · rw [if_pos hsl, if_pos hsr, hunits]
  · rfl

end

/-! ## The index over the edges -/

def slotHome : Option IndexSlot → ℕ
  | some slot => slot.hash.toNat
  | none => 0

/-- the index holds just these edges, and is at most half full -/
structure IndexHolds (env : KeyEnv) (index : TransitionIndex) (contents : Transition → Prop) : Prop where
  complete : index.complete = true
  inv : LinearProbe.Inv isNone slotHome index.slots index.capacity
  hashed : ∀ i < index.capacity, ∀ slot, index.slots i = some slot →
    slot.hash = transitionHash env slot.transition.key slot.transition.attrs
  contents : ∀ t, contents t ↔ ∃ i < index.capacity, ∃ slot, index.slots i = some slot ∧ slot.transition = t
  size : count isSome index.slots index.capacity = index.size
  load : index.size * 2 ≤ index.capacity

section TransitionIndex

variable {env : KeyEnv} {index : TransitionIndex} {contents : Transition → Prop} {α : Type} (p : α → Bool) (f : ℕ → α)

theorem count_none (n : ℕ) : count isSome (fun _ => (none : Option IndexSlot)) n = 0 := by
  simp [count]

variable {capacity n m : ℕ} {hash : BitVec 64} {t : Transition}

theorem indexHolds_new (env : KeyEnv) (h : 0 < capacity) :
    IndexHolds env (transitionIndexNew capacity) fun _ => False where
  complete := rfl
  inv := ⟨⟨0, h, rfl⟩, fun i _ hocc => absurd hocc (show ¬true = false by decide)⟩
  hashed i _ slot hslot := by cases hslot
  contents t := ⟨False.elim, fun ⟨_, _, _, hslot, _⟩ => by cases hslot⟩
  size := count_none capacity
  load := Nat.zero_le _

theorem exists_vacant {slots : ℕ → Option IndexSlot} (h : count isSome slots n < n) :
    ∃ i < n, (slots i).isNone = true := by
  obtain ⟨i, hi, hv⟩ := exists_not_of_count_lt h
  refine ⟨i, hi, ?_⟩
  rw [isNone_iff_eq_none]
  exact not_isSome_iff_eq_none.1 (by rw [hv]; exact Bool.false_ne_true)

/-- **Insertion** of an edge that leaves the index half full at most. -/
theorem IndexHolds.insert (h : IndexHolds env index contents) (t : Transition) (hload : (index.size + 1) * 2 ≤ index.capacity) :
    IndexHolds env (transitionIndexInsert index (transitionHash env t.key t.attrs) t) fun x => contents x ∨ x = t := by
  obtain ⟨hlt, hvacant, hreaches⟩ := LinearProbe.vacancy_spec h.inv.room (transitionHash env t.key t.attrs).toNat
  unfold transitionIndexInsert
  generalize LinearProbe.vacancy isNone index.slots index.capacity index.capacity
    ((transitionHash env t.key t.attrs).toNat % index.capacity) = p at hlt hvacant hreaches
  have hnone : index.slots p = none := isNone_iff_eq_none.1 hvacant
  have hcount := count_update isSome index.slots hlt (some ⟨transitionHash env t.key t.attrs, t⟩)
  rw [hnone, h.size] at hcount
  have hsize : count isSome (update index.slots p (some ⟨transitionHash env t.key t.attrs, t⟩)) index.capacity =
      index.size + 1 := hcount
  refine ⟨h.complete, h.inv.put rfl hreaches (exists_vacant (by rw [hsize]; omega)), fun i hi slot hslot => ?_, fun x => ?_, hsize,
    hload⟩
  · dsimp only at hslot
    rw [update_apply] at hslot
    split_ifs at hslot
    · cases hslot
      rfl
    · exact h.hashed i hi slot hslot
  · dsimp only
    rw [h.contents x]
    constructor
    · rintro (⟨i, hi, slot, hslot, hx⟩ | rfl)
      · refine ⟨i, hi, slot, ?_, hx⟩
        rw [update_of_ne, hslot]
        rintro rfl
        rw [hnone] at hslot
        cases hslot
      · exact ⟨p, hlt, _, update_self .., rfl⟩
    · rintro ⟨i, hi, slot, hslot, hx⟩
      rw [update_apply] at hslot
      split_ifs at hslot
      · cases hslot
        exact .inr hx.symm
      · exact .inl ⟨i, hi, slot, hslot, hx⟩

theorem count_succ (n : ℕ) : count p f (n + 1) = count p f n + (p (f n)).toNat := by
  unfold count
  rw [range_add_one, filter_insert]
  cases h : p (f n) with
  | true =>
    rw [if_pos rfl, card_insert_of_notMem (by simp)]
    rfl
  | false =>
    rfl

theorem count_mono (h : m ≤ n) : count p f m ≤ count p f n :=
  card_le_card (filter_subset_filter _ (range_mono h))

/-- **Growing** keeps the edges. -/
theorem IndexHolds.grow (h : IndexHolds env index contents) :
    IndexHolds env (transitionIndexGrow index) contents ∧ (transitionIndexGrow index).capacity = index.capacity * 2 ∧
      (transitionIndexGrow index).size = index.size := by
  obtain ⟨i₀, hi₀, -⟩ := h.inv.room
  -- after k places the new index holds the edges of those places
  have hloop : ∀ k ≤ index.capacity, ∃ grown : TransitionIndex, (List.range k).foldl (fun grown i =>
        match index.slots i with
        | some slot => transitionIndexInsert grown slot.hash slot.transition
        | none => grown) { transitionIndexNew (index.capacity * 2) with complete := index.complete } = grown ∧
      IndexHolds env grown (fun t => ∃ i < k, ∃ slot, index.slots i = some slot ∧ slot.transition = t) ∧
      grown.capacity = index.capacity * 2 ∧ grown.size = count isSome index.slots k := by
    intro k
    induction k with
    | zero =>
      intro _
      refine ⟨_, rfl, ?_, rfl, rfl⟩
      have hnew := indexHolds_new env (show 0 < index.capacity * 2 by omega)
      rw [h.complete]
      refine ⟨rfl, hnew.inv, hnew.hashed, fun t => ?_, hnew.size, hnew.load⟩
      exact ⟨fun ⟨_, hi, _⟩ => absurd hi (Nat.not_lt_zero _), fun ht => ((hnew.contents t).2 ht).elim⟩
    | succ k ih =>
      intro hk
      obtain ⟨grown, hgrown, hholds, hcap, hsize⟩ := ih (by omega)
      rw [List.range_succ, List.foldl_append, hgrown, List.foldl_cons, List.foldl_nil]
      have hcount := count_succ isSome index.slots k
      have hle := count_mono isSome index.slots hk
      rw [h.size] at hle
      have hload := h.load
      cases hslot : index.slots k with
      | none =>
        rw [hslot] at hcount
        refine ⟨grown, rfl, ⟨hholds.complete, hholds.inv, hholds.hashed, fun t => ?_, hholds.size, hholds.load⟩, hcap,
          hsize.trans hcount.symm⟩
        rw [← hholds.contents t]
        constructor
        · rintro ⟨i, hi, slot, hs, ht⟩
          refine ⟨i, ?_, slot, hs, ht⟩
          by_contra hge
          obtain rfl : i = k := by omega
          rw [hslot] at hs
          cases hs
        · exact fun ⟨i, hi, rest⟩ => ⟨i, by omega, rest⟩
      | some slot =>
        rw [hslot] at hcount
        have hhash := h.hashed k (by omega) slot hslot
        dsimp only
        rw [hhash]
        have hins := hholds.insert slot.transition (by
          omega)
        refine ⟨_, rfl, ⟨hins.complete, hins.inv, hins.hashed, fun t => ?_, hins.size, hins.load⟩, hcap, ?_⟩
        · rw [← hins.contents t]
          constructor
          · rintro ⟨i, hi, s, hs, ht⟩
            by_cases heq : i = k
            · rw [heq, hslot] at hs
              cases hs
              exact .inr ht.symm
            · exact .inl ⟨i, by omega, s, hs, ht⟩
          · rintro (⟨i, hi, rest⟩ | rfl)
            · exact ⟨i, by omega, rest⟩
            · exact ⟨k, by omega, slot, hslot, rfl⟩
        · show grown.size + 1 = _
          rw [hsize, hcount]
          rfl
  obtain ⟨grown, hgrown, hholds, hcap, hsize⟩ := hloop index.capacity le_rfl
  have heq : transitionIndexGrow index = grown := hgrown
  rw [heq]
  refine ⟨⟨hholds.complete, hholds.inv, hholds.hashed, fun t => ?_, hholds.size, hholds.load⟩, hcap, hsize.trans h.size⟩
  rw [h.contents t, ← hholds.contents t]

/-- **An addition to the index**, grown when it would be more than half full. -/
theorem IndexHolds.add (h : IndexHolds env index contents) (hcapacity : 2 ≤ index.capacity) (t : Transition) :
    IndexHolds env (transitionIndexAdd env index t) (fun x => contents x ∨ x = t) ∧ 2 ≤ (transitionIndexAdd env index t).capacity := by
  unfold transitionIndexAdd
  have hload := h.load
  split_ifs with hfull
  · obtain ⟨hgrown, hcap, hsize⟩ := h.grow
    refine ⟨hgrown.insert t (by omega), ?_⟩
    show 2 ≤ (transitionIndexGrow index).capacity
    omega
  · exact ⟨h.insert t (by omega), hcapacity⟩

/-- **The index built from a list** holds its property edges. -/
theorem indexHolds_build (env : KeyEnv) (transitions : List Transition) :
    IndexHolds env (transitionIndexBuild env transitions) (fun t => t ∈ transitions ∧ t.kind = .add) ∧
      2 ≤ (transitionIndexBuild env transitions).capacity := by
  have hloop : ∀ (rest : List Transition) (index : TransitionIndex) (contents : Transition → Prop),
      IndexHolds env index contents → 2 ≤ index.capacity →
      IndexHolds env (rest.foldl (fun index transition =>
        if transition.kind ≠ .add then index else transitionIndexAdd env index transition) index)
        (fun t => contents t ∨ t ∈ rest ∧ t.kind = .add) ∧
      2 ≤ (rest.foldl (fun index transition =>
        if transition.kind ≠ .add then index else transitionIndexAdd env index transition) index).capacity := by
    intro rest
    induction rest with
    | nil =>
      intro index contents h hcap
      rw [List.foldl_nil]
      refine ⟨?_, hcap⟩
      simpa only [List.not_mem_nil, false_and, or_false] using h
    | cons first rest ih =>
      intro index contents h hcap
      rw [List.foldl_cons]
      by_cases hkind : first.kind = .add
      · rw [if_neg (not_not.2 hkind)]
        obtain ⟨hadd, hcap'⟩ := h.add hcap first
        obtain ⟨hrest, hcap''⟩ := ih _ _ hadd hcap'
        refine ⟨?_, hcap''⟩
        convert hrest using 2 with t
        rw [List.mem_cons]
        constructor
        · rintro (hc | ⟨rfl | hmem, hk⟩)
          · exact .inl (.inl hc)
          · exact .inl (.inr rfl)
          · exact .inr ⟨hmem, hk⟩
        · rintro ((hc | rfl) | ⟨hmem, hk⟩)
          · exact .inl hc
          · exact .inr ⟨.inl rfl, hkind⟩
          · exact .inr ⟨.inr hmem, hk⟩
      · rw [if_pos hkind]
        obtain ⟨hrest, hcap'⟩ := ih _ _ h hcap
        refine ⟨?_, hcap'⟩
        convert hrest using 2 with t
        rw [List.mem_cons]
        refine or_congr_right ⟨fun ⟨hmem, hk⟩ => ⟨hmem.resolve_left ?_, hk⟩, fun ⟨hmem, hk⟩ => ⟨.inr hmem, hk⟩⟩
        rintro rfl
        exact hkind hk
  obtain ⟨hholds, hcap⟩ := hloop transitions _ _ (indexHolds_new env (show 0 < transitionIndexThreshold * 2 by decide)) (by decide)
  rw [transitionIndexBuild]
  refine ⟨?_, hcap⟩
  simpa only [false_or] using hholds

variable {key : MalValue} {attrs : BitVec 8}

theorem slotMatches_iff {slot : IndexSlot} : slotMatches env key attrs hash (some slot) = true ↔
      slot.hash = hash ∧ slot.transition.attrs = attrs ∧ env.den slot.transition.key = env.den key := by
  rw [slotMatches, Bool.and_eq_true, Bool.and_eq_true, beq_iff_eq, beq_iff_eq, keyValueEquals_iff, and_assoc]

/-- **A lookup that finds an edge** finds one with the key and the attributes. -/
theorem IndexHolds.find_some (h : IndexHolds env index contents)
    (hfind : transitionIndexFind env index key attrs hash = some t) :
    contents t ∧ t.attrs = attrs ∧ env.den t.key = env.den key := by
  obtain ⟨slot, hslot, rfl⟩ := map_eq_some_iff.1 hfind
  obtain ⟨i, hi, hat, -, hhit⟩ := h.inv.search_some (join_eq_some_iff.1 hslot)
  obtain ⟨-, hattrs, hkey⟩ := slotMatches_iff.1 hhit
  exact ⟨(h.contents _).2 ⟨i, hi, slot, hat, rfl⟩, hattrs, hkey⟩

/-- **A lookup that finds none** leaves none. -/
theorem IndexHolds.find_none (h : IndexHolds env index contents)
    (hfind : transitionIndexFind env index key attrs (transitionHash env key attrs) = none) (hkey : IsPropertyKey key)
    (ht : contents t) (htkey : IsPropertyKey t.key) (hattrs : t.attrs = attrs) : env.den t.key ≠ env.den key := by
  intro hden
  obtain ⟨i, hi, slot, hat, rfl⟩ := (h.contents t).1 ht
  have hhash : slot.hash = transitionHash env key attrs := by
    rw [h.hashed i hi slot hat, hattrs, transitionHash_eq env htkey hkey hden]
  have hsearch := h.inv.search_ne_none (slotMatches env key attrs (transitionHash env key attrs)) hi
    (by rw [hat]; rfl) (by rw [hat]; exact slotMatches_iff.2 ⟨hhash, hattrs, hden⟩)
  rw [hat, slotHome, hhash] at hsearch
  unfold transitionIndexFind at hfind
  obtain ⟨found, hfound⟩ := ne_none_iff_exists'.1 hsearch
  obtain ⟨j, -, -, hocc, -⟩ := h.inv.search_some hfound
  rw [hfound] at hfind
  cases found with
  | none => cases hocc
  | some slot => cases hfind

end TransitionIndex

/-! ## The index over the keys -/

section Entries

variable {i : ℕ}

section

variable (hash : BitVec 32) (hi : i + 1 < 2 ^ 32)
include hi

theorem toNat_packEntry : (packEntry hash i).toNat = hash.toNat * 2 ^ 32 + (i + 1) := by
  rw [packEntry, BitVec.toNat_or, BitVec.toNat_shiftLeft, BitVec.toNat_setWidth, BitVec.toNat_ofNat,
    Nat.mod_eq_of_lt (show hash.toNat < 2 ^ 64 by omega), Nat.mod_eq_of_lt (show i + 1 < 2 ^ 64 by omega),
    Nat.mod_eq_of_lt (show hash.toNat <<< 32 < 2 ^ 64 by rw [Nat.shiftLeft_eq]; omega), ← Nat.shiftLeft_add_eq_or_of_lt hi,
    Nat.shiftLeft_eq]

theorem entryHash_packEntry : entryHash (packEntry hash i) = hash := by
  apply BitVec.eq_of_toNat_eq
  rw [entryHash, BitVec.toNat_setWidth, BitVec.toNat_ushiftRight, toNat_packEntry hash hi]
  omega

theorem entryIndex_packEntry : entryIndex (packEntry hash i) = i := by
  rw [entryIndex, BitVec.toNat_setWidth, toNat_packEntry hash hi]
  omega

theorem packEntry_not_vacant : entryVacant (packEntry hash i) = false := by
  rw [entryVacant, beq_eq_false_iff_ne]
  intro h
  have := toNat_packEntry hash hi
  rw [h] at this
  have hzero : (0 : BitVec 64).toNat = 0 := rfl
  omega

end

end Entries

def entryHome (entry : BitVec 64) : ℕ := (entryHash entry).toNat

/-- the index holds an entry for just these keys -/
structure FindHolds (env : KeyEnv) (props : List ShapeProp) (index : FindIndex) : Prop where
  inv : LinearProbe.Inv entryVacant entryHome index.entries index.capacity
  sound : ∀ i < index.capacity, entryVacant (index.entries i) = false →
    ∃ j p, props[j]? = some p ∧ index.entries i = packEntry (findKeyHash env p.key) j
  complete : ∀ j p, props[j]? = some p → ∃ i < index.capacity, index.entries i = packEntry (findKeyHash env p.key) j

section FindIndex

variable {env : KeyEnv}

theorem findIndexCapacity_ge (count : ℕ) (fuel capacity : ℕ) (h : count * 2 ≤ capacity * 2 ^ fuel) :
    count * 2 ≤ findIndexCapacity count fuel capacity ∧ capacity ≤ findIndexCapacity count fuel capacity := by
  induction fuel generalizing capacity with
  | zero =>
    rw [Nat.pow_zero, Nat.mul_one] at h
    exact ⟨h, le_rfl⟩
  | succ fuel ih =>
    rw [findIndexCapacity]
    split_ifs with hlt
    · obtain ⟨h1, h2⟩ := ih (capacity * 2) (by rw [Nat.mul_assoc, ← Nat.pow_succ']; exact h)
      exact ⟨h1, by omega⟩
    · exact ⟨by omega, le_rfl⟩

variable {props : List ShapeProp}

/-- **The index built from the keys** of a shape. -/
theorem findHolds_build (env : KeyEnv) (hlen : props.length ≤ maxInlineSlots) :
    FindHolds env props (findIndexBuild env props) := by
  have hbound : props.length + 1 < 2 ^ 32 := by rw [maxInlineSlots] at hlen; omega
  obtain ⟨hcap, hcap16⟩ := findIndexCapacity_ge props.length props.length 16 (by
    have := @Nat.lt_two_pow_self props.length
    omega)
  obtain ⟨capacity, hcapacity⟩ : ∃ capacity, capacity = findIndexCapacity props.length props.length 16 := ⟨_, rfl⟩
  -- after k keys the index holds k entries
  have hloop : ∀ k ≤ props.length, ∃ index : FindIndex,
      ((props.take k).zipIdx).foldl (fun index entry => findIndexInsert index (findKeyHash env entry.1.key) entry.2)
        ⟨capacity, fun _ => 0⟩ = index ∧ index.capacity = capacity ∧ FindHolds env (props.take k) index ∧
      count (fun e => !entryVacant e) index.entries capacity = k := by
    intro k
    induction k with
    | zero =>
      intro _
      refine ⟨_, rfl, rfl, ⟨⟨⟨0, show 0 < capacity by omega, rfl⟩, fun i _ hocc => absurd hocc (show ¬true = false by decide)⟩,
        fun i _ hocc => absurd hocc (show ¬true = false by decide), nofun⟩, ?_⟩
      simp [count, entryVacant]
    | succ k ih =>
      intro hk
      obtain ⟨index, hindex, hcap', hholds, hcount⟩ := ih (by omega)
      obtain ⟨prop, hprop⟩ : ∃ prop, props[k]? = some prop := ⟨_, List.getElem?_eq_getElem (by omega)⟩
      have htake : props.take (k + 1) = props.take k ++ [prop] := by rw [List.take_add_one, hprop]; rfl
      have hlength : (props.take k).length = k := by rw [List.length_take]; omega
      rw [htake, List.zipIdx_append, List.foldl_append, hindex, List.zipIdx_singleton, hlength, Nat.zero_add]
      refine ⟨_, rfl, hcap', ?_⟩
      rw [List.foldl_cons, List.foldl_nil]
      have hk32 : k + 1 < 2 ^ 32 := by omega
      unfold findIndexInsert
      obtain ⟨hlt, hvacant, hreaches⟩ := LinearProbe.vacancy_spec hholds.inv.room (findKeyHash env prop.key).toNat
      generalize LinearProbe.vacancy entryVacant index.entries index.capacity index.capacity
        ((findKeyHash env prop.key).toNat % index.capacity) = place at hlt hvacant hreaches
      have hfull := packEntry_not_vacant (findKeyHash env prop.key) hk32
      have hcount' : count (fun e => !entryVacant e) (update index.entries place (packEntry (findKeyHash env prop.key) k))
          capacity = k + 1 := by
        have := count_update (fun e => !entryVacant e) index.entries (hcap' ▸ hlt) (packEntry (findKeyHash env prop.key) k)
        rw [hcount, hvacant, hfull] at this
        exact this
      refine ⟨⟨hholds.inv.put hfull ?_ ?_, fun i hi hocc => ?_, fun j p hp => ?_⟩, hcount'⟩
      · rw [entryHome, entryHash_packEntry _ hk32]
        exact hreaches
      · obtain ⟨i, hi, hv⟩ := exists_not_of_count_lt (show count (fun e => !entryVacant e)
          (update index.entries place (packEntry (findKeyHash env prop.key) k)) capacity < capacity by omega)
        exact ⟨i, hcap' ▸ hi, by simpa using hv⟩
      · dsimp only at hocc ⊢
        by_cases heq : i = place
        · rw [heq, update_self]
          exact ⟨k, prop, by rw [List.getElem?_append_right (by omega), hlength, Nat.sub_self]; rfl, rfl⟩
        rw [update_of_ne heq] at hocc ⊢
        obtain ⟨j, p, hp, he⟩ := hholds.sound i hi hocc
        exact ⟨j, p, by rw [List.getElem?_append_left (List.getElem?_eq_some_iff.1 hp).1, hp], he⟩
      · dsimp only
        by_cases heq : j = k
        · rw [heq, List.getElem?_append_right (by omega), hlength, Nat.sub_self] at hp
          cases hp
          exact ⟨place, hlt, by rw [update_self, heq]⟩
        have hj : j < (props.take k).length := by
          have := (List.getElem?_eq_some_iff.1 hp).1
          rw [List.length_append, List.length_singleton] at this
          omega
        rw [List.getElem?_append_left hj] at hp
        obtain ⟨i, hi, he⟩ := hholds.complete j p hp
        refine ⟨i, hi, ?_⟩
        rw [update_of_ne, he]
        rintro rfl
        rw [he, packEntry_not_vacant _ (by omega)] at hvacant
        cases hvacant
  obtain ⟨index, hindex, -, hholds, -⟩ := hloop props.length le_rfl
  rw [List.take_length] at hindex hholds
  rw [findIndexBuild, ← hcapacity, hindex]
  exact hholds

theorem entryMatches_iff {key : MalValue} {hash : BitVec 32} {j : ℕ} {p : ShapeProp}
    (hp : props[j]? = some p) (hj : j + 1 < 2 ^ 32) (h : BitVec 32) : entryMatches env props key hash (packEntry h j) = true ↔
      h = hash ∧ env.den p.key = env.den key := by
  rw [entryMatches, Bool.and_eq_true, beq_iff_eq, entryHash_packEntry _ hj, entryIndex_packEntry _ hj, hp, any_some,
    keyValueEquals_iff]

/-- **A lookup by the index** finds the place of a key, and none when there is none. -/
theorem findIndexLookup_spec {index : FindIndex} (h : FindHolds env props index)
    (hlen : props.length ≤ maxInlineSlots) (hkeys : ∀ p ∈ props, IsPropertyKey p.key) {key : MalValue} (hkey : IsPropertyKey key) :
    (∀ j, findIndexLookup env index props key = some j → ∃ p, props[j]? = some p ∧ env.den p.key = env.den key) ∧
    (findIndexLookup env index props key = none → ∀ p ∈ props, env.den p.key ≠ env.den key) := by
  have hbound : ∀ {j p}, props[j]? = some p → j + 1 < 2 ^ 32 := by
    intro j p hp
    have := (List.getElem?_eq_some_iff.1 hp).1
    rw [maxInlineSlots] at hlen
    omega
  constructor
  · intro j hfind
    obtain ⟨entry, hentry, rfl⟩ := map_eq_some_iff.1 hfind
    obtain ⟨i, hi, rfl, hocc, hhit⟩ := h.inv.search_some hentry
    obtain ⟨j, p, hp, he⟩ := h.sound i hi hocc
    rw [he] at hhit ⊢
    rw [entryIndex_packEntry _ (hbound hp)]
    exact ⟨p, hp, ((entryMatches_iff hp (hbound hp) _).1 hhit).2⟩
  · intro hfind p hmem hden
    obtain ⟨j, hp⟩ := List.getElem?_of_mem hmem
    obtain ⟨i, hi, he⟩ := h.complete j p hp
    have hhash := findKeyHash_eq env (hkeys p hmem) hkey hden
    refine h.inv.search_ne_none (entryMatches env props key (findKeyHash env key)) hi ?_ ?_ ?_
    · rw [he]
      exact packEntry_not_vacant _ (hbound hp)
    · rw [he, entryMatches_iff hp (hbound hp)]
      exact ⟨hhash, hden⟩
    · rw [he, entryHome, entryHash_packEntry _ (hbound hp), hhash]
      exact map_eq_none_iff.1 hfind

end FindIndex

end Maligator.Shape
