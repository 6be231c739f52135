/-
Ordered collections whose deleted entries stay behind as empty places, and cursors over them.

This is how ECMAScript describes Map and Set data: a list of entries in which a deletion empties the entry's place and an
insertion of a new key appends one. A cursor is a position; it yields the next place that is not empty when it gets there.
Positions are never renumbered, so a cursor needs no repair when the collection changes under it.

`live_write`, `live_remove`, `live_removeAll`: on the entries that are there, the three mutations are those of the ordered
list of `Rows`.
`write_of_row`, `write_of_absent`, `remove_of_row`: a row store performs them by writing one row.
`rest_eq`: a cursor that runs undisturbed yields the live entries in order.
-/
import Maligator.Lib.Rows

namespace Maligator.LiveList

open Rows List Function

variable {K V : Type*}

def live (data : List (Option (K × V))) : List (K × V) := data.filterMap id

def places (row : ℕ → Option (K × V)) (n : ℕ) : List (Option (K × V)) := (range n).map row

theorem live_places (row : ℕ → Option (K × V)) (n : ℕ) : live (places row n) = entries row n := by
  rw [live, places, filterMap_map]
  rfl

theorem live_map_some (l : List (K × V)) : live (l.map some) = l := by
  rw [live, filterMap_map]
  exact filterMap_some

theorem length_places (row : ℕ → Option (K × V)) (n : ℕ) : (places row n).length = n := by simp [places]

variable {row : ℕ → Option (K × V)} {i : ℕ} {data : List (Option (K × V))} {n : ℕ} {v : V}

theorem getElem?_places (hi : i < n) : (places row n)[i]? = some (row i) := by
  simp [places, hi]

theorem places_congr {row' : ℕ → Option (K × V)} (h : ∀ i < n, row i = row' i) : places row n = places row' n :=
  map_congr_left fun i hi => h i (mem_range.1 hi)

theorem places_succ (row : ℕ → Option (K × V)) (n : ℕ) : places row (n + 1) = places row n ++ [row n] := by
  simp [places, range_succ]

theorem places_update (r : Option (K × V)) : places (update row i r) n = (places row n).set i r := by
  refine ext_getElem? fun j => ?_
  rw [getElem?_set]
  by_cases hj : j < n
  · rw [getElem?_places hj, getElem?_places hj, length_places]
    by_cases hij : i = j
    · subst hij
      simp [hj]
    · rw [update_of_ne (Ne.symm hij), if_neg hij]
  have hlen : ∀ row' : ℕ → Option (K × V), (places row' n)[j]? = none := fun row' => by
    rw [getElem?_eq_none_iff, length_places]
    omega
  rw [hlen, hlen, length_places]
  split_ifs with h1 h2
  · omega
  · rfl
  · rfl

theorem exists_places (data : List (Option (K × V))) : ∃ row n, data = places row n := by
  refine ⟨fun i => (data[i]?).getD none, data.length, ?_⟩
  refine ext_getElem? fun i => ?_
  by_cases hi : i < data.length
  · rw [getElem?_places hi, getElem?_eq_getElem hi]
    rfl
  · rw [getElem?_eq_none_iff.2 (by omega), getElem?_eq_none_iff.2 (by rw [length_places]; omega)]

section Mutation

variable [DecidableEq K]

def position (data : List (Option (K × V))) (k : K) : Option ℕ :=
  data.findIdx? fun place => place.any fun p => p.1 = k

def write (data : List (Option (K × V))) (k : K) (v : V) : List (Option (K × V)) :=
  match position data k with
  | some i => data.set i (some (k, v))
  | none => data ++ [some (k, v)]

def remove (data : List (Option (K × V))) (k : K) : List (Option (K × V)) :=
  match position data k with
  | some i => data.set i none
  | none => data

def removeAll (data : List (Option (K × V))) : List (Option (K × V)) := data.map fun _ => none

section Rows

variable {k : K}

theorem position_eq_none : position (places row n) k = none ↔ contains (entries row n) k = false := by
  rw [← Bool.not_eq_true, contains_entries, position, findIdx?_eq_none_iff]
  constructor
  · rintro h ⟨i, hi, v, hr⟩
    have := h (row i) (mem_map_of_mem (mem_range.2 hi))
    simp [hr] at this
  intro h place hp
  obtain ⟨i, hi, rfl⟩ := mem_map.1 hp
  cases hr : row i with
  | none => rfl
  | some p =>
    simp only [Option.any_some, decide_eq_false_iff_not]
    rintro rfl
    exact h ⟨i, mem_range.1 hi, p.2, hr⟩

theorem position_eq_some (hu : ((entries row n).map Prod.fst).Nodup) (hi : i < n)
    (h : row i = some (k, v)) : position (places row n) k = some i := by
  rw [position, findIdx?_eq_some_iff_getElem]
  refine ⟨by rwa [length_places], by simp [places, h], fun j hj => ?_⟩
  have hjn : j < n := by omega
  simp only [places, getElem_map, getElem_range]
  cases hr : row j with
  | none => simp
  | some p =>
    simp only [Option.any_some, decide_eq_true_eq]
    rintro rfl
    exact hj.ne (position_unique hu hjn hi hr h)

theorem write_of_row (hu : ((entries row n).map Prod.fst).Nodup) (hi : i < n) (h : row i = some (k, v)) (w : V) :
    write (places row n) k w = places (update row i (some (k, w))) n := by
  rw [write, position_eq_some hu hi h, places_update]

theorem write_of_absent (h : contains (entries row n) k = false) (v : V) :
    write (places row n) k v = places row n ++ [some (k, v)] := by
  rw [write, position_eq_none.2 h]

theorem remove_of_row (hu : ((entries row n).map Prod.fst).Nodup) (hi : i < n)
    (h : row i = some (k, v)) : remove (places row n) k = places (update row i none) n := by
  rw [remove, position_eq_some hu hi h, places_update]

theorem remove_of_absent (h : contains (entries row n) k = false) : remove (places row n) k = places row n := by
  rw [remove, position_eq_none.2 h]

theorem absent_or_row (row : ℕ → Option (K × V)) (n : ℕ) (k : K) :
    contains (entries row n) k = false ∨ ∃ i < n, ∃ v, row i = some (k, v) := by
  cases h : contains (entries row n) k with
  | false => exact .inl rfl
  | true => exact .inr (contains_entries.1 h)

end Rows

theorem live_write (hu : ((live data).map Prod.fst).Nodup) (k : K) (v : V) :
    live (write data k v) = Rows.insert (live data) k v := by
  obtain ⟨row, n, rfl⟩ := exists_places data
  rw [live_places] at hu ⊢
  rcases absent_or_row row n k with habs | ⟨i, hi, w, hr⟩
  · rw [write_of_absent habs, Rows.insert, if_neg (by simp [habs]), live, filterMap_append]
    change live (places row n) ++ _ = _
    rw [live_places]
    rfl
  · rw [write_of_row hu hi hr v, live_places, entries_set hu hi v hr]

theorem live_remove (hu : ((live data).map Prod.fst).Nodup) (k : K) : live (remove data k) = erase (live data) k := by
  obtain ⟨row, n, rfl⟩ := exists_places data
  rw [live_places] at hu ⊢
  rcases absent_or_row row n k with habs | ⟨i, hi, w, hr⟩
  · rw [remove_of_absent habs, live_places, erase_of_not_contains habs]
  · rw [remove_of_row hu hi hr, live_places, entries_erase hu hi hr]

omit [DecidableEq K] in
theorem live_removeAll (data : List (Option (K × V))) : live (removeAll data) = [] := by
  rw [live, removeAll, filterMap_map, filterMap_eq_nil_iff]
  exact fun _ _ => rfl

end Mutation

/-! ## Cursors -/

/-- the first entry of the places, numbered from i on, and the position after it; the end position if there is none -/
def nextFrom : List (Option (K × V)) → ℕ → Option (K × V) × ℕ
  | [], i => (none, i)
  | none :: rest, i => nextFrom rest (i + 1)
  | some p :: _, i => (some p, i + 1)

def next (data : List (Option (K × V))) (i : ℕ) : Option (K × V) × ℕ := nextFrom (data.drop i) i

theorem next_of_empty (h : data[i]? = some none) : next data i = next data (i + 1) := by
  have hi : i < data.length := (List.getElem?_eq_some_iff.1 h).1
  rw [getElem?_eq_getElem hi, Option.some.injEq] at h
  rw [next, drop_eq_getElem_cons hi, h]
  rfl

theorem next_of_entry {p : K × V} (h : data[i]? = some (some p)) : next data i = (some p, i + 1) := by
  have hi : i < data.length := (List.getElem?_eq_some_iff.1 h).1
  rw [getElem?_eq_getElem hi, Option.some.injEq] at h
  rw [next, drop_eq_getElem_cons hi, h]
  rfl

theorem next_of_end (h : data[i]? = none) : next data i = (none, i) := by
  rw [next, drop_eq_nil_of_le (getElem?_eq_none_iff.1 h)]
  rfl

def rest (data : List (Option (K × V))) : ℕ → ℕ → List (K × V)
  | 0, _ => []
  | fuel + 1, i =>
    match next data i with
    | (none, _) => []
    | (some p, j) => p :: rest data fuel j

theorem rest_eq : ∀ (n i : ℕ), data.length ≤ i + n → ∀ fuel, n < fuel → rest data fuel i = live (data.drop i) := by
  intro n
  induction n with
  | zero =>
    intro i hn fuel hf
    rw [Nat.add_zero] at hn
    obtain ⟨fuel, rfl⟩ := Nat.exists_eq_succ_of_ne_zero (by omega : fuel ≠ 0)
    rw [rest, next_of_end (getElem?_eq_none_iff.2 hn), drop_eq_nil_of_le hn]
    rfl
  | succ n ih =>
    intro i hn fuel hf
    by_cases hi : i < data.length
    · have hdrop := drop_eq_getElem_cons hi
      obtain ⟨fuel, rfl⟩ := Nat.exists_eq_succ_of_ne_zero (by omega : fuel ≠ 0)
      cases he : data[i] with
      | none =>
        have hsome : data[i]? = some none := by rw [getElem?_eq_getElem hi, he]
        rw [hdrop, he]
        change _ = live (data.drop (i + 1))
        rw [← ih (i + 1) (by omega) (fuel + 1) (by omega), rest, rest, next_of_empty hsome]
      | some p =>
        have hsome : data[i]? = some (some p) := by rw [getElem?_eq_getElem hi, he]
        rw [rest, next_of_entry hsome, hdrop, he]
        change p :: _ = p :: live (data.drop (i + 1))
        rw [ih (i + 1) (by omega) fuel (by omega)]
    · obtain ⟨fuel, rfl⟩ := Nat.exists_eq_succ_of_ne_zero (by omega : fuel ≠ 0)
      rw [rest, next_of_end (getElem?_eq_none_iff.2 (by omega)), drop_eq_nil_of_le (by omega)]
      rfl

section Scan

variable {α : Type*} {g : α → K × V}

theorem scan_eq_next (scan : ℕ → ℕ → Option α × ℕ) (row : ℕ → Option α) (hzero : ∀ i, scan 0 i = (none, i))
    (hsucc : ∀ fuel i, i < n → scan (fuel + 1) i = (row i).elim (scan fuel (i + 1)) fun a => (some a, i + 1)) :
    ∀ fuel i, fuel = n - i → ((scan fuel i).1.map g, (scan fuel i).2) = next (places (fun i => (row i).map g) n) i := by
  intro fuel
  induction fuel with
  | zero =>
    intro i hf
    rw [hzero, next_of_end (getElem?_eq_none_iff.2 (by rw [length_places]; omega))]
    rfl
  | succ fuel ih =>
    intro i hf
    have hi : i < n := by omega
    have hplace : (places (fun i => (row i).map g) n)[i]? = some ((row i).map g) := getElem?_places hi
    rw [hsucc fuel i hi]
    cases hrow : row i with
    | none =>
      rw [hrow] at hplace
      rw [next_of_empty hplace]
      exact ih (i + 1) (by omega)
    | some a =>
      rw [hrow] at hplace
      rw [next_of_entry hplace]
      rfl

theorem all_eq_rest {step : ℕ → Option α × ℕ} (all : ℕ → ℕ → List α)
    (hstep : ∀ i, ((step i).1.map g, (step i).2) = next data i) (hzero : ∀ i, all 0 i = [])
    (hsucc : ∀ fuel i, all (fuel + 1) i = (step i).1.elim [] fun a => a :: all fuel (step i).2) :
    ∀ fuel i, (all fuel i).map g = rest data fuel i := by
  intro fuel
  induction fuel with
  | zero => exact fun i => by rw [hzero]; rfl
  | succ fuel ih =>
    intro i
    rw [hsucc, rest, ← hstep i]
    cases (step i).1 with
    | none => rfl
    | some a => exact congrArg (g a :: ·) (ih _)

end Scan

end Maligator.LiveList
